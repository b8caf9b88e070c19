import Efl.Eet.Bounds
import Efl.Eet.Sound
import Efl.Eet.Written

/-
  The reader accepts what the writer produces, and finds the
  same directory and the same dictionary in it, except when
  there are strings and no entries.

  Main declarations:
    * `SameDirectory`, `SameDictionary`
    * `RoundTrip`
    * `image_of_at`
    * `Image.readNode`, `Image.readString`
-/

---
-- The Same Contents
---

namespace Efl.Eet

open Bytes List Option Function

/- An entry that is read, and the one that was written. -/
structure SameEntry (m : Mapped) (efn efn' : FileNode) : Prop where
  name : efn'.name = efn.name
  size : efn'.size = efn.size
  dataSize : efn'.dataSize = efn.dataSize
  compression : efn'.compression = efn.compression
  compressionType : efn'.compressionType = efn.compressionType
  ciphered : efn'.ciphered = efn.ciphered
  isAlias : efn'.isAlias = efn.isAlias
  data : readBinbuf m efn' = some efn.data

/-
  The same entries in each bucket, in the opposite order, and
  the same entry, or none, for each name.
-/
structure SameDirectory (m : Mapped) (nodes nodes' : Nodes) : Prop where
  buckets : ∀ h, List.Forall₂ (SameEntry m)
    (nodes h).reverse (nodes' h)
  find : ∀ name, Option.Rel (SameEntry m)
    (findNode ⟨nodes, none⟩ name) (findNode ⟨nodes', none⟩ name)

/-
  The same string for each index, and the index for each
  string, wherever it is, except where another string of the
  table is.
-/
structure SameDictionary (ed ed' : Option Dictionary) : Prop where
  strings :
    (stringsOf ed').map (fun s => (s.str.chars, s.len)) =
      (stringsOf ed).map fun s => (s.str.chars, s.len)
  lookup : ∀ d, ed' = some d → ∀ (i : Nat) s string,
    d.all[i]? = some s → string.chars = s.str.chars →
    (∀ t ∈ d.all, t.str.addr = string.addr →
      t.str.chars = string.chars) →
    d.lookup string = some (i : Int)

/- The directory of a file. -/
def File.directory (ef : File) : Nodes :=
  ef.nodes.getD fun _ => []

/-
  Wherever the bytes are mapped, and in whichever mode, they
  are read as the contents of the file.
-/
def RoundTrip (ef : File) (bytes : List Byte) : Prop :=
  ∀ m opening, m.size = bytes.length → m.At 0 bytes →
    ∃ contents, read2 m opening = some contents ∧
      SameDirectory m ef.directory contents.nodes ∧
      SameDictionary ef.ed contents.ed

---
-- The Image of a File
---

/- The parts of a file in their places. -/
structure Image (m : Mapped) (efns : List FileNode) (ed : Option Dictionary)
    (dataAt : Nat) : Prop where
  magic : m.word 0 = magicFile2
  entryWord : m.word 4 = BitVec.ofNat 32 efns.length
  stringWord : m.word 8 =
    BitVec.ofNat 32 (stringsOf ed).length
  entries : m.At 12 (writeEntries
    (tableBytes efns.length (stringsOf ed).length) dataAt efns)
  strings : m.At (12 + 24 * efns.length)
    (writeStrings (headsOf ed)
      (tableBytes efns.length (stringsOf ed).length +
        (writeNames efns).length) 0 (stringsOf ed))
  names : m.At (tableBytes efns.length (stringsOf ed).length)
    (writeNames efns)
  chars : m.At
    (tableBytes efns.length (stringsOf ed).length +
      (writeNames efns).length) (writeChars (stringsOf ed))
  data : m.At dataAt (writeData dataAt 0 efns)
  order : tableBytes efns.length (stringsOf ed).length +
    (writeNames efns).length +
    (writeChars (stringsOf ed)).length ≤ dataAt
  size : m.size =
    dataAt + (writeData dataAt 0 efns).length
  small : m.size < 2 ^ 31

variable {efns : List FileNode}

theorem sum_names
    (hSize : ∀ efn ∈ efns, efn.nameSize = efn.name.length + 1) :
    (efns.map fun efn => efn.name.length + 1).sum = (efns.map fun efn => efn.nameSize).sum := by
  congr 1
  apply map_congr_left
  intro efn hMem
  exact (hSize efn hMem).symm

variable {m : Mapped} {ed : Option Dictionary}

/- The bytes of the writer. -/
theorem image_of_at (hNames : ∀ efn ∈ efns, efn.nameSize = efn.name.length + 1)
    (hStrings : ∀ s ∈ stringsOf ed, s.Sized) (hSize : m.size = (fileBytes efns ed).length)
    (hSmall : m.size < 2 ^ 31) (hAt : m.At 0 (fileBytes efns ed)) :
    ∃ dataAt, Image m efns ed dataAt := by
  have hNamesLen := length_writeNames hNames
  have hCharsLen := length_writeChars hStrings
  unfold fileBytes at hAt hSize
  dsimp only at hAt hSize
  rw [sum_names hNames, ← hNamesLen, ← hCharsLen] at hAt hSize
  have hAlign := le_align (tableBytes efns.length (stringsOf ed).length +
    ((writeNames efns).length + (writeChars (stringsOf ed)).length))
  generalize hD : align (tableBytes efns.length (stringsOf ed).length +
    ((writeNames efns).length + (writeChars (stringsOf ed)).length)) =
    dataAt at hAt hSize hAlign
  have hTable : 12 + 24 * efns.length + 20 * (stringsOf ed).length =
      tableBytes efns.length (stringsOf ed).length := by
    unfold tableBytes
    omega
  simp only [Mapped.at_append, length_append, length_be32,
    length_writeEntries, length_writeStrings, zeros, length_replicate, Nat.zero_add] at hAt hSize
  rcases hAt with ⟨⟨⟨⟨⟨⟨⟨⟨hMagic, hCount⟩, hDict⟩, hEntries⟩,
    hDictionary⟩, hNamesAt⟩, hChars⟩, -⟩, hData⟩
  refine ⟨dataAt, hMagic.word, hCount.word, hDict.word, hEntries,
    hDictionary, ?_, ?_, ?_, by omega, by omega, hSmall⟩
  · rwa [hTable] at hNamesAt
  · rwa [hTable] at hChars
  · rwa [hTable, show tableBytes efns.length (stringsOf ed).length +
      (writeNames efns).length + (writeChars (stringsOf ed)).length +
      (dataAt - (tableBytes efns.length (stringsOf ed).length + ((writeNames efns).length +
      (writeChars (stringsOf ed)).length))) = dataAt by omega] at hData

/- Numbers of a small file. -/
theorem toNat_small {n : Nat} (hSmall : n < 2 ^ 31) : (BitVec.ofNat 32 n).toNat = n := by
  rw [BitVec.toNat_ofNat]
  exact Nat.mod_eq_of_lt (by omega)

theorem toInt_small {x : Int} (hLow : -2 ^ 31 ≤ x)
    (hHigh : x < 2 ^ 31) : (BitVec.ofInt 32 x).toInt = x := by
  rw [BitVec.toInt_ofInt]
  exact Int.bmod_eq_of_le (by omega) (by omega)

/- The flags of an entry that is not compressed. -/
theorem flag_bits {efn : FileNode} (hCompression : efn.compression = false)
    (hType : efn.compressionType = 0)
    (hCiphered : efn.ciphered = false) :
    efn.flag &&& 1#32 = 0#32 ∧ efn.flag &&& 2#32 = 0#32 ∧
      decide (efn.flag &&& 4#32 ≠ 0#32) = efn.isAlias ∧
      ((efn.flag >>> 3) &&& 0xff#32).toNat = 0 := by
  unfold FileNode.flag
  rw [hCompression, hType, hCiphered]
  cases efn.isAlias <;> decide

/- What is read of an entry in its place. -/
def Placed.load (opening : Opening) (i : Nat) (x : Placed) : FileNode :=
  { x.efn with
    nameAt := some x.nameAt
    offset := x.offset
    data :=
      if opening.readOnly ∨ ¬ opening.copies i then none
      else x.efn.data }

/- The places of an entry. -/
structure Placed.Fits (m : Mapped) (base : Nat) (x : Placed) : Prop where
  sound : ∃ h, x.efn.Sound h
  name : m.At x.nameAt (x.efn.name ++ [0])
  data : m.At x.offset (x.efn.data.getD [])
  low : base ≤ x.nameAt
  order : x.nameAt + x.efn.nameSize ≤ x.offset
  above : base < x.offset
  inside : x.offset + x.efn.size ≤ m.size

theorem FileNode.Sound.sized {efn : FileNode} {h : Nat}
    (hSound : efn.Sound h) : efn.Sized := hSound.data

variable {dataAt : Nat}

theorem Image.fits {x : Placed} (hImage : Image m efns ed dataAt)
    (hSound : ∀ efn ∈ efns, ∃ h, efn.Sound h) (hMem : x ∈ placed
      (tableBytes efns.length (stringsOf ed).length) dataAt efns) :
    x.Fits m (tableBytes efns.length (stringsOf ed).length) := by
  have hSized : ∀ efn ∈ efns, efn.Sized := by
    intro efn h
    rcases hSound efn h with ⟨_, hOwn⟩
    exact hOwn.sized
  have hNameSize : ∀ efn ∈ efns, efn.nameSize = efn.name.length + 1 := by
    intro efn h
    rcases hSound efn h with ⟨_, hOwn⟩
    exact hOwn.nameSize
  rcases placed_name hImage.names hNameSize hMem with ⟨hName, hLow, hHigh⟩
  rcases placed_data hImage.data hSized hMem with ⟨hData, hAfter, hEnd⟩
  have hOrder := hImage.order
  have hSize := hImage.size
  have hOwn := hNameSize x.efn (placed_mem hMem)
  exact ⟨hSound x.efn (placed_mem hMem), hName, hData, hLow, by omega, by omega, by omega⟩

/- An entry is read from its place. -/
theorem Placed.Fits.readNode {opening : Opening} {base i : Nat}
    {x : Placed} (hFits : x.Fits m base) (hSmall : m.size < 2 ^ 31)
    (hWords : m.word (12 + 24 * i) = BitVec.ofNat 32 x.offset ∧
      m.word (12 + 24 * i + 4) = BitVec.ofNat 32 x.efn.size ∧
      m.word (12 + 24 * i + 8) = BitVec.ofNat 32 x.efn.dataSize ∧
      m.word (12 + 24 * i + 12) = BitVec.ofNat 32 x.nameAt ∧
      m.word (12 + 24 * i + 16) = BitVec.ofNat 32 x.efn.nameSize ∧
      m.word (12 + 24 * i + 20) = x.efn.flag) :
    readNode m opening base i = some (x.load opening i) := by
  rcases hFits.sound with ⟨h, hSound⟩
  rcases hSound.data with ⟨data, hData, hLen, hPos⟩
  rcases flag_bits hSound.compression hSound.compressionType
    hSound.ciphered with ⟨hFlag₀, hFlag₁, hFlag₂, hType⟩
  have hInside := hFits.inside
  have hOrder := hFits.order
  have hAbove := hFits.above
  have hBase := hFits.low
  have hName := hSound.nameSize
  rcases hWords with ⟨h₀, h₁, h₂, h₃, h₄, h₅⟩
  have hString := hFits.name.string hSound.noNul
  have hNul := hFits.name.nul
  rw [← hName] at hString
  have hRange := hFits.data.range
  rw [hData, getD_some, ← hLen] at hRange
  unfold Eet.readNode
  dsimp only
  rw [h₀, h₁, h₂, h₃, h₄, h₅, toNat_small (by omega : x.offset < 2 ^ 31),
    toNat_small (by omega : x.efn.size < 2 ^ 31), hSound.dataSize,
    toNat_small (by omega : x.efn.size < 2 ^ 31), toNat_small (by omega : x.nameAt < 2 ^ 31),
    toNat_small (by omega : x.efn.nameSize < 2 ^ 31)]
  have hSum : uintAdd x.offset x.efn.size = x.offset + x.efn.size := Nat.mod_eq_of_lt (by omega)
  rw [if_neg (not_not.mpr ⟨hPos, by omega, hAbove⟩),
    if_neg (not_not.mpr ⟨by omega, by omega, hBase⟩),
    if_neg (not_not.mpr (by
      rw [hName, ← Nat.add_assoc, Nat.add_sub_cancel]
      exact hNul)), hString, hRange, hFlag₀, hFlag₁, hFlag₂, hType]
  unfold Placed.load
  rw [hData]
  simp [hSound.compression, hSound.ciphered, hSound.compressionType, hSound.dataSize]

/- It is the entry that was written. -/
theorem Placed.Fits.same {base : Nat} {x : Placed}
    (hFits : x.Fits m base) (hSmall : m.size < 2 ^ 31)
    (opening : Opening) (i : Nat) : SameEntry m x.efn (x.load opening i) := by
  rcases hFits.sound with ⟨h, hSound⟩
  rcases hSound.data with ⟨data, hData, hLen, hPos⟩
  have hInside := hFits.inside
  refine ⟨rfl, rfl, rfl, rfl, rfl, rfl, rfl, ?_⟩
  have hRange := hFits.data.range
  rw [hData, getD_some, ← hLen] at hRange
  have hSum : uintAdd x.offset x.efn.size = x.offset + x.efn.size := Nat.mod_eq_of_lt (by omega)
  unfold readBinbuf Placed.load
  dsimp only
  split
  · rename_i bytes hBytes
    split at hBytes
    · simp at hBytes
    · rw [hBytes]
  · rw [if_neg (by omega), hSum, if_neg (by omega), if_pos hInside, hRange, hData]

---
-- The Dictionary of an Image
---

/- What of a string does not depend on where it is. -/
def DictString.key (s : DictString) : List Byte × Int × Int × Nat :=
  (s.str.chars, s.len, s.next, s.hash)

/- What is known of a dictionary does not depend on it. -/
theorem Dictionary.Sound.of_key {ed ed' : Dictionary} (hSound : ed.Sound)
    (hKey : ed'.all.map DictString.key = ed.all.map DictString.key)
    (hHash : ed'.hash = ed.hash) (hCount : ed'.count = ed.count) : ed'.Sound := by
  have hLength : ed'.all.length = ed.all.length := by
    simpa using congrArg List.length hKey
  have hHashes : ed'.hashes = ed.hashes := by
    have h := congrArg (List.map fun k => k.2.2.2) hKey
    simpa [DictString.key, comp_def, hashes] using h
  have hChars : ed'.all.map (fun s => s.str.chars) = ed.all.map fun s => s.str.chars := by
    have h := congrArg (List.map fun k => k.1) hKey
    simpa [DictString.key, comp_def] using h
  have hAt : ∀ (j : Nat) s', ed'.all[j]? = some s' → ∃ s, ed.all[j]? = some s ∧ s'.key = s.key := by
    intro j s' h
    have hSame := congrArg (fun l => l[j]?) hKey
    simp only [getElem?_map, h, map_some] at hSame
    rcases map_eq_some_iff.mp hSame.symm with ⟨s, hs, hEq⟩
    exact ⟨s, hs, hEq.symm⟩
  constructor
  · rw [hCount, hSound.count, hLength]
  · intro h
    rw [hHash, hHashes, hLength]
    exact hSound.hash h
  · intro j s' h
    rcases hAt j s' h with ⟨s, hs, hEq⟩
    simp only [DictString.key, Prod.mk.injEq] at hEq
    rw [hEq.2.2.1, hEq.2.2.2, hHashes]
    exact hSound.next j s hs
  · intro s' hMem
    rcases mem_iff_getElem?.mp hMem with ⟨j, h⟩
    rcases hAt j s' h with ⟨s, hs, hEq⟩
    simp only [DictString.key, Prod.mk.injEq] at hEq
    rcases hSound.own s (mem_of_getElem? hs) with ⟨hOwn, hLen, hNoNul⟩
    unfold sizeOf at hLen ⊢
    rw [hEq.1, hEq.2.1, hEq.2.2.2]
    exact ⟨hOwn, hLen, hNoNul⟩
  · rw [hChars]
    exact hSound.once

/- The hint for the heads. -/
def prevHint (ed : Option Dictionary) (s : DictString) (j : Nat) : Int :=
  if headsOf ed s.hash = (j : Int) then -1 else 0

/- The strings of a dictionary, if there is one, are sound. -/
theorem sized_of_sound (hSound : ∀ d, ed = some d → d.Sound)
    (hSmall : (writeChars (stringsOf ed)).length < 2 ^ 31) : ∀ s ∈ stringsOf ed, s.Sized := by
  intro s hMem
  cases ed with
  | none => simp [stringsOf] at hMem
  | some d =>
    rcases (hSound d rfl).own s hMem with ⟨-, hLen, hNoNul⟩
    refine ⟨?_, hNoNul⟩
    have hLe : s.str.chars.length + 1 ≤ (writeChars (stringsOf (some d))).length := by
      rcases append_of_mem hMem with ⟨ss, ts, hSplit⟩
      rw [hSplit]
      simp only [writeChars, flatMap_append, flatMap_cons, length_append, length_singleton]
      omega
    rw [hLen]
    unfold Dictionary.sizeOf
    rw [CInt.wrap_of_inRange]
    unfold CInt.InRange
    omega

variable {j : Nat}

section

variable (hImage : Image m efns ed dataAt)

include hImage

/- An entry of the dictionary, in its place. -/
theorem Image.string {s : DictString} (hSound : ∀ d, ed = some d → d.Sound)
    (hString : (stringsOf ed)[j]? = some s) :
    ∃ o, stringEntry m (12 + 24 * efns.length + 20 * j) =
        ⟨s.hash, o, s.len, prevHint ed s j, s.next⟩ ∧
      s.hash < 256 ∧ s.Sized ∧
      m.At o (s.str.chars ++ [0]) ∧
      tableBytes efns.length (stringsOf ed).length +
        (writeNames efns).length ≤ o ∧
      o + s.len.toNat ≤ dataAt := by
  have hOrder := hImage.order
  have hSize := hImage.size
  have hSmall := hImage.small
  have hSized := sized_of_sound hSound (by omega)
  have hBound := (List.getElem?_eq_some_iff.mp hString).1
  rcases exists_offset (tableBytes efns.length (stringsOf ed).length +
    (writeNames efns).length) hString with ⟨o, hOffset⟩
  have hWords := string_words hImage.strings hString hOffset
  rcases string_chars hImage.chars hSized hString hOffset with ⟨hChars, hLow, hHigh⟩
  have hOwn := hSized s (mem_of_getElem? hString)
  have hLen := hOwn.1
  have hNext : -2 ^ 31 ≤ s.next ∧ s.next < 2 ^ 31 ∧ s.hash < 256 := by
    cases ed with
    | none => simp [stringsOf] at hString
    | some d =>
      have hHash := ((hSound d rfl).own s (mem_of_getElem? hString)).1
      have hLess := hashGen_lt s.str.chars
      rw [(hSound d rfl).next j s hString]
      have hTable : (stringsOf (some d)).length ≤
          tableBytes efns.length (stringsOf (some d)).length := by
        unfold tableBytes
        omega
      rcases lastBefore_cases d.hashes s.hash j with ⟨hNone, -⟩ | ⟨i, hi, hEq, -⟩
      · rw [hNone]
        omega
      · rw [hEq]
        omega
  refine ⟨o, ?_, hNext.2.2, hOwn, hChars, hLow, by omega⟩
  rw [hWords, toNat_small (by omega : s.hash < 2 ^ 31),
    toNat_small (by omega : o < 2 ^ 31), toInt_small (by omega) (by omega),
    toInt_small hNext.1 hNext.2.1, Nat.zero_add]
  rfl

/- The numbers of entries. -/
theorem Image.counts :
    entryCount m = efns.length ∧
      (m.word 8).toNat = (stringsOf ed).length ∧
      stringCount m = (stringsOf ed).length ∧
      tableBytes efns.length (stringsOf ed).length ≤ m.size := by
  have hOrder := hImage.order
  have hSize := hImage.size
  have hSmall := hImage.small
  have hTable : efns.length + (stringsOf ed).length ≤
      tableBytes efns.length (stringsOf ed).length := by
    unfold tableBytes
    omega
  have hStrings : (m.word 8).toNat = (stringsOf ed).length := by
    rw [hImage.stringWord]
    exact toNat_small (by omega)
  refine ⟨?_, hStrings, ?_, by omega⟩
  · unfold entryCount
    rw [hImage.entryWord]
    exact toNat_small (by omega)
  · unfold stringCount
    rw [hStrings, CInt.wrap_of_inRange]
    unfold CInt.InRange
    omega

/- An entry of the dictionary is read from its place. -/
theorem Image.readString {s : DictString} (hSound : ∀ d, ed = some d → d.Sound)
    (hNames : 0 < (writeNames efns).length) (hData : dataAt < m.size)
    (hString : (stringsOf ed)[j]? = some s) :
    readString m efns.length
        (tableBytes efns.length (stringsOf ed).length) j =
      some (stringEntry m (12 + 24 * efns.length + 20 * j)) := by
  have hSmall := hImage.small
  rcases hImage.string hSound hString with ⟨o, hEntry, hHash, ⟨hLen, hNoNul⟩, hChars, hLow, hHigh⟩
  unfold Eet.readString
  dsimp only
  rw [hEntry]
  have hLast : StringEntry.last ⟨s.hash, o, s.len, prevHint ed s j, s.next⟩ = o + s.len.toNat := by
    unfold StringEntry.last uintAdd
    dsimp only
    rw [Int.emod_eq_of_lt (by omega) (by omega)]
    exact Nat.mod_eq_of_lt (by omega)
  have hNul := hChars.nul
  rw [show s.str.chars.length = (s.len - 1).toNat by omega] at hNul
  rw [if_neg (by dsimp only; omega), if_neg, if_neg]
  · exact not_not.mpr hNul
  · rw [hLast, not_not]
    dsimp only
    omega

end

variable {es : List StringEntry}

/- The heads are found again. -/
theorem headsFrom_hints (hSound : ∀ d, ed = some d → d.Sound) (hEntries : ∀ (j : Nat) e,
    es[j]? = some e → ∃ s, (stringsOf ed)[j]? = some s ∧ e.hash = s.hash ∧ e.prev = prevHint ed s j)
    (hLength : es.length = (stringsOf ed).length) : headsFrom 0 (fun _ => -1) es = headsOf ed := by
  funext h
  rcases headsFrom_spec es 0 (fun _ => -1) h with ⟨k,
    ⟨e, hAt, hPrev, -⟩, hHead, e', hAt', hHash⟩ | ⟨hHead, hNone⟩
  · obtain rfl : e = e' := some.inj (hAt.symm.trans hAt')
    rcases hEntries k e hAt with ⟨s, -, hSame, hHint⟩
    rw [hHint, prevHint, ← hSame, hHash] at hPrev
    rw [hHead, Nat.zero_add]
    split at hPrev
    · rename_i hIs
      exact hIs.symm
    · simp at hPrev
  · rw [hHead]
    cases ed with
    | none => rfl
    | some d =>
      rw [headsOf, (hSound d rfl).hash]
      rcases lastBefore_cases d.hashes h d.all.length with ⟨hEmpty, -⟩ | ⟨i, hi, hEq, hIs⟩
      · exact hEmpty.symm
      · have hBound : i < es.length := by
          rw [hLength]
          exact hi
        have hAt := getElem?_eq_getElem hBound
        rcases hEntries i _ hAt with ⟨s, hs, hSame, hHint⟩
        have hOwn : s.hash = h := by
          rw [stringsOf] at hs
          simpa [Dictionary.hashes, hs] using hIs
        refine (hNone _ (getElem_mem hBound) (hSame.trans hOwn) ?_).elim
        rw [hHint, prevHint, headsOf, hOwn, (hSound d rfl).hash, hEq, if_pos rfl]

---
-- The Directory of an Image
---

/- The buckets of the reader. -/
theorem pushes_eq (efns : List FileNode) (nodes : Nodes) (h : Nat) :
    efns.foldl Nodes.push nodes h = (efns.filter fun efn =>
      hashGen efn.name = h).reverse ++ nodes h := by
  induction efns generalizing nodes with
  | nil => rfl
  | cons efn efns ih =>
    rw [foldl_cons, ih, filter_cons]
    unfold Nodes.push
    by_cases hSame : hashGen efn.name = h
    · rw [if_pos (decide_eq_true hSame), hSame, update_self,
        reverse_cons, append_assoc, singleton_append]
    · rw [if_neg (by simpa using hSame), update_of_ne (Ne.symm hSame)]

/- One of the buckets. -/
theorem flatMap_range_eq {α : Type} (n h : Nat) (f : Nat → List α)
    (hOther : ∀ k, k ≠ h → f k = []) : (List.range n).flatMap f = if h < n then f h else [] := by
  induction n with
  | zero => simp
  | succ n ih =>
    rw [range_succ, flatMap_append, ih, flatMap_singleton]
    by_cases hSame : n = h
    · subst hSame
      simp
    · rw [hOther n hSame, append_nil]
      congr 1
      rw [eq_iff_iff]
      omega

variable {nodes : Nodes}

/- The entries of a bucket, among all. -/
theorem Nodes.Sound.filter_entries (hSound : nodes.Sound) (h : Nat) :
    nodes.entries.filter (fun efn => hashGen efn.name = h) = nodes h := by
  unfold Nodes.entries
  rw [filter_flatMap, flatMap_range_eq 256 h]
  · have hAll : (nodes h).filter (fun efn => hashGen efn.name = h) = nodes h := by
      rw [filter_eq_self]
      intro efn hMem
      exact decide_eq_true (hSound.entry h efn hMem).hash
    split
    · exact hAll
    · rename_i hLarge
      symm
      rw [eq_nil_iff_forall_not_mem]
      intro efn hMem
      have hHash := (hSound.entry h efn hMem).hash
      have hLess := hashGen_lt efn.name
      omega
  · intro k hOther
    rw [filter_eq_nil_iff]
    intro efn hMem
    rw [(hSound.entry k efn hMem).hash, decide_eq_true_iff]
    exact hOther

theorem Nodes.Sound.entry_sound (hSound : nodes.Sound) :
    ∀ efn ∈ nodes.entries, ∃ h, efn.Sound h := by
  intro efn hMem
  rcases mem_flatMap.mp hMem with ⟨h, -, hIn⟩
  exact ⟨h, hSound.entry h efn hIn⟩

/- Related lists have related first elements. -/
theorem rel_find {α β : Type} {R : α → β → Prop} {p : α → Bool}
    {q : β → Bool} {as : List α} {bs : List β}
    (hSame : ∀ a b, R a b → p a = q b) (hRel : List.Forall₂ R as bs) :
    Option.Rel R (as.find? p) (bs.find? q) := by
  induction hRel with
  | nil => exact .none
  | cons hHead hRest ih =>
    rw [find?_cons, find?_cons, hSame _ _ hHead]
    split
    · exact .some hHead
    · exact ih

/- The order does not matter where names are different. -/
theorem find_reverse (name : List Byte)
    (hOnce : (efns.map fun efn => efn.name).Nodup) :
    efns.reverse.find? (fun efn => efn.name = name) = efns.find? fun efn => efn.name = name := by
  induction efns with
  | nil => rfl
  | cons e efns ih =>
    rw [map_cons, nodup_cons] at hOnce
    rw [reverse_cons, find?_append, ih hOnce.2]
    by_cases hName : e.name = name
    · have hNone : efns.find? (fun efn => efn.name = name) =
          none := by
        rw [find?_eq_none]
        intro efn hMem
        rw [decide_eq_true_iff]
        intro hEq
        exact hOnce.1 (mem_map.mpr ⟨efn, hMem, hEq.trans hName.symm⟩)
      simp [hNone, hName]
    · simp [hName]

/- Elements with their indices. -/
theorem forall₂_mapIdx {α β γ : Type} {R : β → γ → Prop} {g : α → β} {as : List α}
    (f : Nat → α → γ) (hRel : ∀ a ∈ as, ∀ i, R (g a) (f i a)) :
    List.Forall₂ R (as.map g) (as.mapIdx f) := by
  induction as generalizing f with
  | nil => exact .nil
  | cons a as ih =>
    rw [map_cons, mapIdx_cons]
    exact .cons (hRel a (by simp) 0) (ih _ fun b hb i => hRel b (by simp [hb]) (i + 1))

/- The entries that are read of an image. -/
def loaded (opening : Opening) (efns : List FileNode) (base dataAt : Nat) : List FileNode :=
  (placed base dataAt efns).mapIdx (Placed.load opening)

theorem Image.readNodes (hImage : Image m efns ed dataAt)
    (hSound : ∀ efn ∈ efns, ∃ h, efn.Sound h) (opening : Opening) :
    (List.range efns.length).mapM (readNode m opening
        (tableBytes efns.length (stringsOf ed).length)) =
      some (loaded opening efns (tableBytes efns.length (stringsOf ed).length) dataAt) := by
  apply Lists.mapM_range (by simp [loaded])
  intro i b hAt
  rw [loaded, getElem?_mapIdx, map_eq_some_iff] at hAt
  rcases hAt with ⟨x, hx, rfl⟩
  exact (hImage.fits hSound (mem_of_getElem? hx)).readNode
    hImage.small (placed_entry hImage.entries hx)

/- They are those that were written. -/
theorem Image.loaded_same (hImage : Image m efns ed dataAt)
    (hSound : ∀ efn ∈ efns, ∃ h, efn.Sound h) (opening : Opening) :
    List.Forall₂ (SameEntry m) efns (loaded opening efns
      (tableBytes efns.length (stringsOf ed).length) dataAt) := by
  have h := forall₂_mapIdx (R := SameEntry m) (g := fun x : Placed =>
    x.efn) (Placed.load opening) (fun x hx i =>
      (hImage.fits hSound hx).same hImage.small opening i)
  rwa [map_placed] at h

/- The directory that is read. -/
theorem sameDirectory_of_rel (hSound : nodes.Sound)
    (hRel : List.Forall₂ (SameEntry m) nodes.entries efns) :
    SameDirectory m nodes (efns.foldl Nodes.push fun _ => []) := by
  have hBuckets : ∀ h, List.Forall₂ (SameEntry m) (nodes h).reverse
      (efns.foldl Nodes.push (fun _ => []) h) := by
    intro h
    rw [pushes_eq, append_nil, List.forall₂_reverse_iff, ← hSound.filter_entries h]
    refine rel_filter ?_ hRel
    intro efn efn' hSame
    simp [hSame.name]
  refine ⟨hBuckets, ?_⟩
  intro name
  unfold findNode
  dsimp only
  rw [← find_reverse name (hSound.once _)]
  refine rel_find ?_ (hBuckets _)
  intro efn efn' hSame
  rw [hSame.name]

---
-- Flush and Read
---

/- The base is not before the end of an entry. -/
theorem le_signatureBase (m : Mapped) {efn : FileNode}
    (es : List StringEntry) (hMem : efn ∈ efns) :
    uintAdd efn.offset efn.size ≤ signatureBase m efns es := by
  unfold signatureBase
  dsimp only
  have hFirst := (Lists.le_foldl_max (fun efn : FileNode => uintAdd efn.offset efn.size) efns
    (if efns = [] then m.size else 0)).2 efn hMem
  exact hFirst.trans (Lists.le_foldl_max (fun e : StringEntry => e.last) es _).1

section

variable (hImage : Image m efns ed dataAt)

include hImage

/- There is nothing behind the last entry. -/
theorem Image.signatureBase_ge (hSound : ∀ efn ∈ efns, ∃ h, efn.Sound h) (opening : Opening)
    (es : List StringEntry) :
    m.size ≤ signatureBase m (loaded opening efns
      (tableBytes efns.length (stringsOf ed).length) dataAt)
      es := by
  by_cases hEmpty : efns = []
  · subst hEmpty
    unfold signatureBase
    exact (Lists.le_foldl_max (fun e : StringEntry => e.last) es _).1
  · have hSized : ∀ efn ∈ efns, efn.Sized := by
      intro efn h
      rcases hSound efn h with ⟨_, hOwn⟩
      exact hOwn.sized
    rcases placed_last (tableBytes efns.length (stringsOf ed).length)
      dataAt 0 hSized hEmpty with ⟨x, hx, hEnd⟩
    rw [← hImage.size] at hEnd
    rw [Nat.add_zero] at hx
    have hSmall := hImage.small
    rcases mem_iff_getElem?.mp hx with ⟨i, hAt⟩
    have hMem : x.load opening i ∈ loaded opening efns
        (tableBytes efns.length (stringsOf ed).length)
        dataAt := by
      apply mem_of_getElem? (i := i)
      rw [loaded, getElem?_mapIdx, hAt]
      rfl
    have hBase := le_signatureBase m es hMem
    have hSum : uintAdd (x.load opening i).offset
        (x.load opening i).size = x.offset + x.efn.size := by
      unfold Placed.load uintAdd
      exact Nat.mod_eq_of_lt (by dsimp only; omega)
    omega

/- The names and the data leave room for strings. -/
theorem Image.room
    (hSound : ∀ efn ∈ efns, ∃ h, efn.Sound h) (hSome : efns ≠ []) :
    0 < (writeNames efns).length ∧ dataAt < m.size := by
  have hSized : ∀ efn ∈ efns, efn.Sized := by
    intro efn h
    rcases hSound efn h with ⟨_, hOwn⟩
    exact hOwn.sized
  rcases exists_cons_of_ne_nil hSome with ⟨efn, es, rfl⟩
  constructor
  · simp [writeNames]
  · rcases hSized efn (by simp) with ⟨data, hData, hLen, hPos⟩
    rw [hImage.size, writeData]
    simp only [hData, getD_some, length_append]
    omega

/- The entries of the dictionary. -/
theorem Image.length_fileStrings : (fileStrings m).length = (stringsOf ed).length := by
  rw [fileStrings, length_map, length_range, hImage.counts.2.2.1, Int.toNat_natCast]

theorem Image.fileStrings_at {e : StringEntry} (hSound : ∀ d, ed = some d → d.Sound)
    (hAt : (fileStrings m)[j]? = some e) :
    ∃ s o, (stringsOf ed)[j]? = some s ∧
      e = ⟨s.hash, o, s.len, prevHint ed s j, s.next⟩ ∧ s.Sized ∧ m.At o (s.str.chars ++ [0]) := by
  have hBound := (List.getElem?_eq_some_iff.mp hAt).1
  rw [fileStrings, getElem?_map, getElem?_range
    (by simpa [fileStrings] using hBound), map_some, hImage.counts.1] at hAt
  rw [hImage.length_fileStrings] at hBound
  have hString := getElem?_eq_getElem hBound
  rcases hImage.string hSound hString with ⟨o, hEntry, -, hSized, hChars, -, -⟩
  refine ⟨_, o, hString, ?_, hSized, hChars⟩
  rw [← some.inj hAt, hEntry]

end

theorem map_key_eq (hLength : es.length = (stringsOf ed).length)
    (hAt : ∀ (j : Nat) e, es[j]? = some e →
      ∃ s o, (stringsOf ed)[j]? = some s ∧
        e = ⟨s.hash, o, s.len, prevHint ed s j, s.next⟩ ∧
        s.Sized ∧ m.At o (s.str.chars ++ [0])) :
    es.map (fun e => (e.load m).key) = (stringsOf ed).map DictString.key := by
  apply ext_getElem (by simpa using hLength)
  intro j hLeft hRight
  rw [length_map] at hLeft hRight
  rcases hAt j _ (getElem?_eq_getElem hLeft) with ⟨s, o, hString, hEntry, ⟨hLen, hNoNul⟩, hChars⟩
  rw [getElem?_eq_getElem hRight] at hString
  rw [getElem_map, getElem_map, some.inj hString, hEntry]
  have hRead := hChars.string hNoNul
  rw [show s.str.chars.length + 1 = s.len.toNat by omega] at hRead
  simp [StringEntry.load, DictString.key, hRead]

theorem Image.load_key (hImage : Image m efns ed dataAt)
    (hSound : ∀ d, ed = some d → d.Sound) :
    (fileStrings m).map (fun e => (e.load m).key) = (stringsOf ed).map DictString.key :=
  map_key_eq hImage.length_fileStrings fun _ _ hAt => hImage.fileStrings_at hSound hAt

/- The dictionary that is read. -/
theorem Image.dictionary {d : Dictionary}
    (hImage : Image m efns (some d) dataAt) (hSound : d.Sound) :
    (loadDictionary m (m.word 8).toNat (fileStrings m)).Sound := by
  have hAll : ∀ d', some d = some d' → d'.Sound := by
    rintro d' ⟨⟩
    exact hSound
  refine hSound.of_key ?_ ?_ ?_
  · rw [load_all, List.map_map]
    exact hImage.load_key hAll
  · rw [load_hash]
    refine headsFrom_hints hAll ?_ hImage.length_fileStrings
    intro j e he
    rcases hImage.fileStrings_at hAll he with ⟨s, o, hString, rfl, -⟩
    exact ⟨s, hString, rfl, rfl⟩
  · rw [load_count, hImage.counts.2.2.1, hSound.count]
    rfl

variable {k : Nat}

/- A file that passes the checks. -/
theorem read2_accepts {opening : Opening} {n : Nat}
    (hMagic : m.word 0 = magicFile2) (hEntries : (m.word 4).toNat = n)
    (hStrings : (m.word 8).toNat = k) (hFits : tableBytes n k ≤ m.size) (hSmall : m.size < 2 ^ 31)
    (hNodes : (List.range n).mapM
    (readNode m opening (tableBytes n k)) = some efns) (hRead :
    (List.range k).mapM (readString m n (tableBytes n k)) = some es)
    (hBase : m.size ≤ signatureBase m efns es) :
    read2 m opening = some ⟨efns.foldl Nodes.push fun _ => [],
        if k = 0 then none
        else some (loadDictionary m k es)⟩ := by
  have hTable : tableBytes n k = 24 * n + 12 + 20 * k := rfl
  have hWrap : CInt.wrap (12 + 24 * (n : Int)) = 12 + 24 * (n : Int) := by
    rw [CInt.wrap_of_inRange]
    unfold CInt.InRange
    omega
  have hCount : (CInt.wrap (k : Int)).toNat = k := by
    rw [CInt.wrap_of_inRange, Int.toNat_natCast]
    unfold CInt.InRange
    omega
  have hUlong : toUlong (12 + 24 * (n : Int)) = 12 + 24 * n := by
    unfold toUlong
    omega
  have hLarge : ¬ signatureBase m efns es < m.size := by omega
  unfold read2
  dsimp only
  rw [if_neg (not_not.mpr hMagic), hEntries, hStrings,
    if_neg (by omega), if_neg (by omega), hNodes, bind_eq_bind, bind_some]
  by_cases hZero : k = 0
  · rw [if_pos hZero, if_pos hZero]
    subst hZero
    obtain rfl := some.inj hRead
    rw [if_neg (fun h => hLarge h.1)]
  · rw [if_neg hZero, if_neg hZero, hWrap, hUlong,
      if_neg (by rw [Nat.mod_eq_of_lt (by omega)]; omega), hCount,
      hRead, bind_eq_bind, bind_some, if_neg (fun h => hLarge h.1)]

/- The entries of the dictionary are read. -/
theorem Image.readStrings (hImage : Image m efns ed dataAt)
    (hNodes : ∀ efn ∈ efns, ∃ h, efn.Sound h) (hSound : ∀ d, ed = some d → d.Sound)
    (hCond : efns ≠ [] ∨ stringsOf ed = []) :
    (List.range (stringsOf ed).length).mapM (Eet.readString m efns.length
      (tableBytes efns.length (stringsOf ed).length)) = some (fileStrings m) := by
  apply Lists.mapM_range hImage.length_fileStrings
  intro j e hAt
  have hBound := (List.getElem?_eq_some_iff.mp hAt).1
  rw [fileStrings, getElem?_map, getElem?_range
    (by simpa [fileStrings] using hBound), map_some, hImage.counts.1] at hAt
  rw [hImage.length_fileStrings] at hBound
  have hSome : efns ≠ [] := by
    refine hCond.resolve_right ?_
    intro hEmpty
    rw [hEmpty, length_nil] at hBound
    omega
  have hRoom := hImage.room hNodes hSome
  rw [hImage.readString hSound hRoom.1 hRoom.2 (getElem?_eq_getElem hBound), hAt]

/- A dictionary that is loaded from the same strings. -/
theorem sameDictionary_load (hCount : k = (stringsOf ed).length)
    (hKey : es.map (fun e =>
    (e.load m).key) = (stringsOf ed).map DictString.key)
    (hLoad : ∀ d, ed = some d → (loadDictionary m k es).Sound) :
    SameDictionary ed (if k = 0 then none
        else some (loadDictionary m k es)) := by
  split
  · rename_i hZero
    have hEmpty : stringsOf ed = [] := length_eq_zero_iff.mp (hCount.symm.trans hZero)
    refine ⟨?_, by simp⟩
    rw [hEmpty]
    rfl
  · rename_i hSome
    constructor
    · have h := congrArg (List.map fun k => (k.1, k.2.1)) hKey
      rw [stringsOf, load_all]
      simpa only [List.map_map, comp_def, DictString.key] using h
    · intro d hd i s string hString hChars hMemory
      cases ed with
      | none => exact (hSome hCount).elim
      | some d' =>
        have hOwn := hLoad d' rfl
        rw [some.inj hd] at hOwn
        exact hOwn.lookup_eq hString hChars hMemory

/- The dictionary that is read is the same. -/
theorem Image.sameDictionary (hImage : Image m efns ed dataAt) (hSound : ∀ d, ed = some d → d.Sound)
    (hCount : (m.word 8).toNat = k) :
    SameDictionary ed (if k = 0 then none
        else some (loadDictionary m k (fileStrings m))) := by
  refine sameDictionary_load ?_ (hImage.load_key hSound) ?_
  · rw [← hCount]
    exact hImage.counts.2.1
  · rintro d rfl
    rw [← hCount]
    exact hImage.dictionary (hSound d rfl)

/- An image is accepted, and has the contents of the file. -/
theorem Image.accepted (hImage : Image m nodes.entries ed dataAt)
    (hNodes : nodes.Sound) (hSound : ∀ d, ed = some d → d.Sound)
    (hCond : nodes.entries ≠ [] ∨ stringsOf ed = [])
    (opening : Opening) :
    ∃ contents, read2 m opening = some contents ∧
      SameDirectory m nodes contents.nodes ∧ SameDictionary ed contents.ed := by
  rcases hImage.counts with ⟨hEntries, hStrings, -, hFits⟩
  have hRead := read2_accepts hImage.magic hEntries hStrings hFits
    hImage.small (hImage.readNodes hNodes.entry_sound opening)
    (hImage.readStrings hNodes.entry_sound hSound hCond)
    (hImage.signatureBase_ge hNodes.entry_sound opening _)
  refine ⟨_, hRead, ?_, hImage.sameDictionary hSound hStrings⟩
  exact sameDirectory_of_rel hNodes (hImage.loaded_same hNodes.entry_sound opening)

/-
  Without entries the first string is where the tables end,
  and no string may be there.
-/
theorem Image.rejected (hImage : Image m [] ed dataAt)
    (hSome : stringsOf ed ≠ []) (opening : Opening) : read2 m opening = none := by
  cases hRead : read2 m opening with
  | none => rfl
  | some contents =>
    exfalso
    rcases read2_opened hRead with ⟨efns, es, hOpened⟩
    rcases hImage.counts with ⟨hEntries, hStrings, hCount, -⟩
    have hPos := length_pos_iff.mpr hSome
    have hMem : Eet.readString m (entryCount m) (tableBytes
        (entryCount m) (m.word 8).toNat) 0 ∈ es.map some := by
      rw [← Lists.mapM_eq_some_iff.mp hOpened.strings]
      refine List.mem_map_of_mem ?_
      rw [hCount, mem_range, Int.toNat_natCast]
      exact hPos
    rcases mem_map.mp hMem with ⟨e, -, hEq⟩
    rcases readString_eq hEq.symm with ⟨hEntry, -, -, hLow, -⟩
    rcases exists_cons_of_ne_nil hSome with ⟨s, ss, hCons⟩
    have hFirst : (stringsOf ed)[0]? = some s := by
      rw [hCons]
      rfl
    have hOffset : (stringOffsets
        (tableBytes 0 (stringsOf ed).length) (stringsOf ed))[0]? =
        some (tableBytes 0 (stringsOf ed).length) := by
      rw [hCons]
      rfl
    have hWords := string_words hImage.strings hFirst hOffset
    have hSmall := hImage.small
    have hFits := hImage.counts.2.2.2
    rw [length_nil] at hFits hEntries
    rw [hEntries, hStrings] at hLow
    rw [hEntries, Nat.mul_zero, Nat.add_zero] at hEntry
    rw [length_nil, Nat.mul_zero, Nat.add_zero] at hWords
    rw [hEntry, hWords] at hLow
    dsimp only at hLow
    rw [toNat_small (by omega)] at hLow
    omega

/-
  The file that is written is read with the same directory and
  dictionary, after all calls, exactly when it has an entry or
  no strings.
-/
theorem flush_read_iff {hasDictionary : Bool} {calls : List Call}
    {ef : File} {bytes : List Byte} (hGuarded : Runs.Guarded callStep
    (fun _ call => call.MemoryOk) (File.new hasDictionary) calls)
    (hRun : Runs.run callStep (File.new hasDictionary) calls =
      some ef)
    (hFlush : flush2 ef = some bytes)
    (hSmall : bytes.length < 2 ^ 31) :
    RoundTrip ef bytes ↔
      ef.directory.entries ≠ [] ∨ stringsOf ef.ed = [] := by
  have hSound := calls_sound hGuarded hRun
  unfold flush2 at hFlush
  split at hFlush
  · simp at hFlush
  rename_i nodes hNodes
  split at hFlush
  · simp at hFlush
  split at hFlush
  · simp at hFlush
  obtain rfl := some.inj hFlush
  have hDirectory : ef.directory = nodes := by
    rw [File.directory, hNodes, getD_some]
  have hOwn := hSound.nodes nodes hNodes
  rw [hDirectory]
  have hImage : ∀ m : Mapped,
      m.size = (fileBytes nodes.entries ef.ed).length →
      m.At 0 (fileBytes nodes.entries ef.ed) →
      ∃ dataAt, Image m nodes.entries ef.ed dataAt := by
    intro m hSize hAt
    refine image_of_at ?_ ?_ hSize (by omega) hAt
    · intro efn hMem
      rcases hOwn.entry_sound efn hMem with ⟨h, hEntry⟩
      exact hEntry.nameSize
    · refine sized_of_sound hSound.ed ?_
      unfold fileBytes at hSmall
      simp only [length_append] at hSmall
      omega
  constructor
  · intro hTrip
    by_contra hNot
    rw [not_or, not_not] at hNot
    have hAt : (sampleFile (fileBytes nodes.entries ef.ed)).At 0
        (fileBytes nodes.entries ef.ed) := by
      intro i b hByte
      simp [sampleFile, hByte]
    rcases hTrip _ sampleOpening rfl hAt with ⟨contents, hRead, -⟩
    rcases hImage _ rfl hAt with ⟨dataAt, hImage⟩
    rw [hNot.1] at hImage hRead
    rw [hImage.rejected hNot.2 sampleOpening] at hRead
    simp at hRead
  · intro hCond m opening hSize hAt
    rcases hImage m hSize hAt with ⟨dataAt, hImage⟩
    rw [hDirectory]
    exact hImage.accepted hOwn hSound.ed hCond opening

/- Memory for everything. -/
def sampleAllocs : Allocs where
  header := true
  buffer := true
  node := true
  name := true
  copy := true

/- An entry "a" and a string "x". -/
def sampleCalls : List Call :=
  [.write sampleAllocs ⟨[97], noNul_a⟩ [1, 2, 3],
    .stringAdd ⟨some 1000, true⟩ 2000 ⟨[120], by decide⟩]

/- The file, and what is written of it, after some calls. -/
def fileAfter (calls : List Call) : Option File :=
  Runs.run callStep (File.new true) calls

def bytesAfter (calls : List Call) : Option (List Byte) :=
  (fileAfter calls).bind flush2

/- It is read again. -/
theorem flush_read_sample :
    ∃ ef bytes,
      fileAfter sampleCalls = some ef ∧
      flush2 ef = some bytes ∧
      (RoundTrip ef bytes ↔
        ef.directory.entries ≠ [] ∨ stringsOf ef.ed = []) := by
  have hFlush : (bytesAfter sampleCalls).isSome := by
    decide +kernel
  have hLength : (bytesAfter sampleCalls).map List.length =
      some 67 := by
    decide +kernel
  rcases isSome_iff_exists.mp hFlush with ⟨bytes, hBytes⟩
  rw [hBytes, map_some, Option.some.injEq] at hLength
  rcases bind_eq_some_iff.mp hBytes with ⟨ef, hRun, hFlush⟩
  exact ⟨ef, bytes, hRun, hFlush, flush_read_iff
    (Runs.guarded_of_forall (by simp [sampleCalls,
      Call.MemoryOk, sampleAllocs])) hRun hFlush (by omega)⟩

/-
  When the entry is deleted, the file is written with the
  string alone, and the reader rejects it.
-/
theorem flush_rejected :
    ∃ ef bytes,
      fileAfter (sampleCalls ++ [.delete ⟨[97], by decide⟩]) = some ef ∧
      flush2 ef = some bytes ∧ bytes.length = 40 ∧
      read2 (sampleFile bytes) sampleOpening = none ∧
      ¬ RoundTrip ef bytes := by
  have hFlush : (bytesAfter (sampleCalls ++
      [.delete ⟨[97], by decide⟩])).isSome := by
    decide +kernel
  have hLength : (bytesAfter (sampleCalls ++
      [.delete ⟨[97], by decide⟩])).map List.length =
        some 40 := by
    decide +kernel
  have hNone : (bytesAfter (sampleCalls ++
      [.delete ⟨[97], by decide⟩])).all (fun bytes =>
        (read2 (sampleFile bytes) sampleOpening).isNone) := by
    decide +kernel
  rcases isSome_iff_exists.mp hFlush with ⟨bytes, hBytes⟩
  rw [hBytes, map_some, Option.some.injEq] at hLength
  rw [hBytes, all_some, isNone_iff_eq_none] at hNone
  rcases bind_eq_some_iff.mp hBytes with ⟨ef, hRun, hFlush⟩
  refine ⟨ef, bytes, hRun, hFlush, hLength, hNone, ?_⟩
  intro hTrip
  rcases hTrip (sampleFile bytes) sampleOpening rfl
    (by intro i b h; simp [sampleFile, h]) with
    ⟨contents, hRead, -⟩
  rw [hNone] at hRead
  simp at hRead

end Efl.Eet
