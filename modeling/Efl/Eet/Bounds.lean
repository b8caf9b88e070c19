import Efl.Eet.Dictionary
import Mathlib.Data.List.TakeWhile

/-
  The ranges of an opened file: its data, names and strings.

  Main declarations:
    * `readBinbuf`, `directStep`
    * `RangesInside`, `ReadsInside`
    * `opened_inside_iff`
    * `opened_outside`
-/

---
-- Reads of an Opened File
---

namespace Efl.Eet

open Bytes List Option

/- `find_node_by_name` -/
def findNode (contents : Contents) (name : List Byte) : Option FileNode :=
  (contents.nodes (hashGen name)).find? fun efn =>
    efn.name = name

/-
  The bytes that `read_binbuf_from_disk` returns a buffer for,
  if any; `none` for a buffer that leaves the file.
-/
def readBinbuf (m : Mapped) (efn : FileNode) : Option (Option (List Byte)) :=
  match efn.data with
  | some data => some (some data)
  | none =>
    if m.size < efn.offset then
      some none
    else if m.size < uintAdd efn.offset efn.size then
      some none
    else if efn.offset + efn.size ≤ m.size then
      some (some (m.range efn.offset efn.size))
    else
      none

/- `data[i]` of an entry, in memory or in the file. -/
def FileNode.dataByte (m : Mapped) (efn : FileNode) (i : Int) : Option Byte :=
  match efn.data with
  | some data => if i < 0 then none else data[i.toNat]?
  | none =>
    if 0 ≤ efn.offset + i ∧ efn.offset + i < m.size then
      some (m.byte (efn.offset + i).toNat)
    else
      none

/- The string at the start of its data. -/
def FileNode.dataString (m : Mapped) (efn : FileNode) : Option (List Byte) :=
  let bytes :=
    match efn.data with
    | some data => data
    | none => m.range efn.offset (m.size - efn.offset)
  if 0 ∈ bytes then some (bytes.takeWhile (· ≠ 0)) else none

/- The index `size - 1`, where `size` is an `int`. -/
def FileNode.lastIndex (efn : FileNode) : Int :=
  CInt.wrap (CInt.wrap efn.dataSize - 1)

/-
  What `eet_read_direct` does with the entry that it has
  found: it returns, with the entry when the data can be
  accessed, or it goes on with another name.
-/
inductive Direct where
  | done (efn : Option FileNode)
  | follow (name : List Byte)

/-
  `eet_read_direct` on an entry; `none` is a read outside of
  the data.  `decompress` is `emile_decompress`.
-/
def directStep (m : Mapped) (decompress : List Byte → Nat → Option (List Byte))
    (efn : FileNode) : Option Direct :=
  if m.size < uintAdd efn.offset efn.size ∧
      efn.data = none then
    some (.done none)
  else if efn.isAlias then
    if efn.compression then do
      let input ← readBinbuf m efn
      match input.bind fun bytes =>
          decompress bytes efn.dataSize with
      | none => some (.done none)
      | some out =>
        if out.getLast? = some 0 then
          some (.follow (out.takeWhile (· ≠ 0)))
        else
          some (.done none)
    else do
      let last ← efn.dataByte m efn.lastIndex
      if last ≠ 0 then
        some (.done none)
      else do
        let name ← efn.dataString m
        some (.follow name)
  else if efn.compression = false ∧ efn.ciphered = false then
    some (.done (some efn))
  else
    some (.done none)

/- The ranges that opening the file reads for an entry. -/
def FileNode.openReads (efn : FileNode) : List (Nat × Nat) :=
  let p := efn.nameAt.getD 0
  [(p + efn.nameSize - 1, 1), (p, efn.name.length + 1)] ++
    if efn.data = none then [] else [(efn.offset, efn.size)]

/- The same for a string: its last byte, and all up to NUL. -/
def DictString.reads (m : Mapped) (s : DictString) : List (Nat × Nat) :=
  let p := s.str.addr - m.addr
  [(p + (s.len - 1).toNat, 1), (p, s.str.chars.length + 1)]

/- All ranges are in the file. -/
structure RangesInside (m : Mapped) (contents : Contents) : Prop where
  data : ∀ h, ∀ efn ∈ contents.nodes h,
    efn.offset + efn.size ≤ m.size
  name : ∀ h, ∀ efn ∈ contents.nodes h,
    ∃ p, efn.nameAt = some p ∧ p + efn.nameSize ≤ m.size
  string : ∀ ed, contents.ed = some ed → ∀ s ∈ ed.all,
    m.addr ≤ s.str.addr ∧
      (s.str.addr - m.addr : Int) + s.len ≤ m.size

/-
  Nothing outside of the file is read: when it is opened, by
  accesses to its strings and by reads of its entries.
-/
structure ReadsInside (m : Mapped) (contents : Contents) : Prop where
  tables : tableBytes (entryCount m) (m.word 8).toNat ≤ m.size
  opening : ∀ h, ∀ efn ∈ contents.nodes h,
    ∀ r ∈ efn.openReads, r.1 + r.2 ≤ m.size
  strings : ∀ ed, contents.ed = some ed → ∀ s ∈ ed.all,
    ∀ r ∈ s.reads m, r.1 + r.2 ≤ m.size
  binbuf : ∀ h, ∀ efn ∈ contents.nodes h,
    readBinbuf m efn ≠ none
  direct : ∀ decompress name efn,
    findNode contents name = some efn →
      directStep m decompress efn ≠ none

/-
  The sums of offset and size do not wrap, except in a file
  that is large enough for the range.
-/
structure SumsFit (m : Mapped) (contents : Contents) : Prop where
  data : ∀ h, ∀ efn ∈ contents.nodes h,
    efn.offset + efn.size < 2 ^ 32 ∨
      efn.offset + efn.size ≤ m.size
  string : ∀ e ∈ fileStrings m,
    (e.offset : Int) + e.len < 2 ^ 32 ∨
      (e.offset : Int) + e.len ≤ m.size

/-
  The name in each alias that is stored uncompressed: the byte
  at `data_size - 1` is in the data, and if it is NUL, a NUL
  follows the start of the data.
-/
def AliasesEnd (m : Mapped) (contents : Contents) : Prop :=
  ∀ name efn, findNode contents name = some efn →
    efn.isAlias = true → efn.compression = false →
      ∃ last, efn.dataByte m efn.lastIndex = some last ∧
        (last = 0 → ∃ target, efn.dataString m = some target)

---
-- Bounds
---

/- The checks that an entry of an opened file has passed. -/
structure Checked (m : Mapped) (base : Nat) (efn : FileNode) : Prop where
  size : 0 < efn.size
  sum : uintAdd efn.offset efn.size ≤ m.size
  offset : base < efn.offset
  nameSize : 0 < efn.nameSize
  name : ∃ p, efn.nameAt = some p ∧ p + efn.nameSize < m.size ∧
    efn.name = m.string p efn.nameSize ∧
    m.byte (p + efn.nameSize - 1) = 0
  data : ∀ bytes, efn.data = some bytes →
    bytes = m.range efn.offset efn.size

variable {m : Mapped} {opening : Opening} {efn : FileNode}

theorem readNode_checked {base i : Nat}
    (hRead : readNode m opening base i = some efn) : Checked m base efn := by
  unfold readNode at hRead
  dsimp only at hRead
  split at hRead
  · simp at hRead
  rename_i hRange
  split at hRead
  · simp at hRead
  rename_i hName
  split at hRead
  · simp at hRead
  rename_i hEnd
  obtain rfl := some.inj hRead
  rw [not_not] at hRange hName hEnd
  refine ⟨hRange.1, hRange.2.1, hRange.2.2, hName.1, ⟨_, rfl, hName.2.1, rfl, hEnd⟩, ?_⟩
  intro bytes hData
  dsimp only at hData
  split at hData
  · simp at hData
  · exact (some.inj hData).symm

/- The entries in the buckets. -/
theorem mem_push {nodes : Nodes} {efn' : FileNode} {h : Nat} :
    efn' ∈ nodes.push efn h ↔ efn' = efn ∧ hashGen efn.name = h ∨ efn' ∈ nodes h := by
  unfold Nodes.push
  by_cases hSame : h = hashGen efn.name
  · subst hSame
    simp
  · rw [Function.update_of_ne hSame]
    constructor
    · exact Or.inr
    · rintro (⟨-, hEq⟩ | h)
      · exact (hSame hEq.symm).elim
      · exact h

variable {efns : List FileNode}

theorem mem_pushes {nodes : Nodes} {h : Nat} :
    efn ∈ efns.foldl Nodes.push nodes h ↔ efn ∈ efns ∧ hashGen efn.name = h ∨ efn ∈ nodes h := by
  induction efns generalizing nodes with
  | nil => simp
  | cons e efns ih =>
    rw [foldl_cons, ih, mem_push, mem_cons]
    constructor
    · rintro (h | ⟨rfl, h⟩ | h)
      · exact Or.inl ⟨Or.inr h.1, h.2⟩
      · exact Or.inl ⟨Or.inl rfl, h⟩
      · exact Or.inr h
    · rintro (⟨rfl | h, hHash⟩ | h)
      · exact Or.inr (Or.inl ⟨rfl, hHash⟩)
      · exact Or.inl ⟨h, hHash⟩
      · exact Or.inr (Or.inr h)

variable {contents : Contents} {es : List StringEntry}

theorem Opened.checked {h : Nat} (hOpened : Opened m opening contents efns es)
    (hMem : efn ∈ contents.nodes h) :
    Checked m (tableBytes (entryCount m) (m.word 8).toNat)
      efn := by
  rw [hOpened.nodes, mem_pushes] at hMem
  rcases hMem with ⟨hMem, -⟩ | hMem
  · rcases Lists.mem_of_mapM hOpened.entries hMem with ⟨i, -, hRead⟩
    exact readNode_checked hRead
  · simp at hMem

/- A node that is found is in its bucket. -/
theorem findNode_mem {name : List Byte}
    (hFind : findNode contents name = some efn) :
    efn ∈ contents.nodes (hashGen name) := mem_of_find?_eq_some hFind

/- A string that a NUL ends is shorter than its range. -/
theorem length_string_lt {p n : Nat} (hPos : 0 < n)
    (hEnd : m.byte (p + (n - 1)) = 0) : (m.string p n).length < n := by
  have hRange : (m.range p n).length = n := by
    simp [Mapped.range]
  have hMem : (0 : Byte) ∈ m.range p n := by
    refine mem_map.mpr ⟨n - 1, ?_, hEnd⟩
    rw [mem_range]
    omega
  have hLe : (m.string p n).length ≤ n := by
    have h := (takeWhile_sublist (· ≠ (0 : Byte)) (l := m.range p n)).length_le
    rwa [hRange] at h
  refine lt_of_le_of_ne hLe ?_
  intro hSame
  have hAll : m.string p n = m.range p n := by
    apply (List.takeWhile_prefix _).eq_of_length
    rw [hRange]
    exact hSame
  rw [← hAll] at hMem
  simpa using mem_takeWhile_imp hMem

/- A sum that does not wrap is below the file's size. -/
theorem sum_le {a b size : Nat} (hSum : uintAdd a b ≤ size)
    (hFits : a + b < 2 ^ 32 ∨ a + b ≤ size) : a + b ≤ size := by
  rcases hFits with hFits | hFits
  · unfold uintAdd at hSum
    rwa [Nat.mod_eq_of_lt hFits] at hSum
  · exact hFits

variable (hOpened : Opened m opening contents efns es)

include hOpened

/- The strings of an opened file. -/
theorem Opened.mem_all {ed : Dictionary} {s : DictString}
    (hEd : contents.ed = some ed) : s ∈ ed.all ↔ ∃ e ∈ fileStrings m, e.load m = s := by
  rw [hOpened.ed ed hEd, load_all, hOpened.es_eq, List.mem_map]

variable {e : StringEntry}

/- The checks that its entries have passed. -/
theorem Opened.string_checked
    (hMem : e ∈ fileStrings m) :
    0 < e.len ∧ e.last < m.size ∧ m.byte (e.offset + (e.len - 1).toNat) = 0 := by
  rw [← hOpened.es_eq] at hMem
  rcases Lists.mem_of_mapM hOpened.strings hMem with ⟨j, -, hRead⟩
  rcases readString_eq hRead with ⟨-, -, hLen, -, hLast, hEnd⟩
  exact ⟨hLen, hLast, hEnd⟩

/- Its range, when the sum does not wrap. -/
omit hOpened in
theorem StringEntry.inside (hLen : 0 < e.len) (hWord : e.len < 2 ^ 32) (hLast : e.last < m.size)
    (hFits : (e.offset : Int) + e.len < 2 ^ 32 ∨
      (e.offset : Int) + e.len ≤ m.size) : (e.offset : Int) + e.len ≤ m.size := by
  rcases hFits with hFits | hFits
  · unfold StringEntry.last uintAdd at hLast
    have hMod : e.len % 2 ^ 32 = e.len := Int.emod_eq_of_lt (by omega) hWord
    rw [hMod, Nat.mod_eq_of_lt (by omega)] at hLast
    omega
  · exact hFits

/- A range that is read of a string with a NUL at its end. -/
theorem DictString.reads_inside {r : Nat × Nat} (hMem : e ∈ fileStrings m)
    (hInside : (e.offset : Int) + e.len ≤ m.size)
    (hRead : r ∈ (e.load m).reads m) : r.1 + r.2 ≤ m.size := by
  have hChecked := hOpened.string_checked hMem
  have hShort : (m.string e.offset e.len.toNat).length < e.len.toNat := by
    refine length_string_lt (by omega) ?_
    rw [← hChecked.2.2]
    congr 2
    omega
  simp only [DictString.reads, StringEntry.load,
    Nat.add_sub_cancel_left, mem_cons, not_mem_nil, or_false] at hRead
  rcases hRead with rfl | rfl
  · dsimp only
    omega
  · dsimp only
    omega

/- The length of a string is an `int`. -/
omit hOpened in
theorem fileStrings_len_lt (hMem : e ∈ fileStrings m) : e.len < 2 ^ 32 := by
  rcases List.mem_map.mp hMem with ⟨j, -, rfl⟩
  have h := BitVec.toInt_lt (x := m.word (12 + 24 * entryCount m + 20 * j + 8))
  unfold stringEntry
  dsimp only
  omega

/- The ranges are in the file exactly when the sums fit. -/
theorem Opened.rangesInside_iff :
    RangesInside m contents ↔ SumsFit m contents := by
  constructor
  · intro hInside
    refine ⟨fun h efn hMem => Or.inr (hInside.data h efn hMem), ?_⟩
    intro e hMem
    right
    cases hEd : contents.ed with
    | none =>
      rw [← hOpened.es_eq, hOpened.noEd hEd] at hMem
      simp at hMem
    | some ed =>
      have hLoad := (hInside.string ed hEd (e.load m) ((hOpened.mem_all hEd).mpr ⟨e, hMem, rfl⟩)).2
      simp only [StringEntry.load] at hLoad
      omega
  · intro hFits
    refine ⟨?_, ?_, ?_⟩
    · intro h efn hMem
      exact sum_le (hOpened.checked hMem).sum (hFits.data h efn hMem)
    · intro h efn hMem
      rcases (hOpened.checked hMem).name with ⟨p, hAt, hLess, -⟩
      exact ⟨p, hAt, hLess.le⟩
    · intro ed hEd s hs
      rcases (hOpened.mem_all hEd).mp hs with ⟨e, hMem, rfl⟩
      have hChecked := hOpened.string_checked hMem
      have hInside := StringEntry.inside hChecked.1
        (fileStrings_len_lt hMem) hChecked.2.1 (hFits.string e hMem)
      refine ⟨Nat.le_add_right .., ?_⟩
      simp only [StringEntry.load]
      omega

omit hOpened

/- What is read of an entry while the file is opened. -/
theorem Checked.openReads_inside {base : Nat} {r : Nat × Nat}
    (hChecked : Checked m base efn) (hInside : efn.offset + efn.size ≤ m.size)
    (hRead : r ∈ efn.openReads) : r.1 + r.2 ≤ m.size := by
  rcases hChecked.name with ⟨p, hAt, hLess, hName, hEnd⟩
  have hPos := hChecked.nameSize
  have hShort : efn.name.length < efn.nameSize := by
    rw [hName]
    refine length_string_lt hPos ?_
    rwa [← Nat.add_sub_assoc hPos]
  simp only [FileNode.openReads, hAt, getD_some, mem_append, mem_cons,
    not_mem_nil, or_false] at hRead
  rcases hRead with (rfl | rfl) | hRead
  · dsimp only
    omega
  · dsimp only
    omega
  · split at hRead
    · simp at hRead
    · obtain rfl := mem_singleton.mp hRead
      exact hInside

/- `read_binbuf_from_disk` on an entry in the file. -/
theorem readBinbuf_ne_none (hInside : efn.offset + efn.size ≤ m.size) :
    readBinbuf m efn ≠ none := by
  unfold readBinbuf
  split
  · simp
  · rw [if_pos hInside]
    split_ifs <;> simp

/-
  `eet_read_direct` on an entry in the file reads outside only
  where an alias is stored uncompressed.
-/
theorem directStep_ne_none (decompress : List Byte → Nat → Option (List Byte))
    (hInside : efn.offset + efn.size ≤ m.size)
    (hAlias : efn.isAlias = true → efn.compression = false → ∃ last,
      efn.dataByte m efn.lastIndex = some last ∧
      (last = 0 → ∃ target, efn.dataString m = some target)) :
    directStep m decompress efn ≠ none := by
  unfold directStep
  split
  · simp
  split
  · rename_i hIsAlias
    split
    · rcases ne_none_iff_exists'.mp (readBinbuf_ne_none hInside) with ⟨input, hInput⟩
      rw [hInput, bind_eq_bind, bind_some]
      split
      · simp
      · split <;> simp
    · rename_i hPlain
      rcases hAlias hIsAlias (by simpa using hPlain) with ⟨last, hLast, hTarget⟩
      rw [hLast, bind_eq_bind, bind_some]
      split
      · simp
      · rename_i hZero
        rcases hTarget (not_not.mp hZero) with ⟨target, hTarget⟩
        rw [hTarget]
        simp
  · split <;> simp

/- The accesses to an alias whose name is read. -/
theorem alias_of_directStep {base : Nat} {decompress : List Byte → Nat → Option (List Byte)}
    (hChecked : Checked m base efn) (hStep : directStep m decompress efn ≠ none)
    (hAlias : efn.isAlias = true) (hPlain : efn.compression = false) :
    ∃ last, efn.dataByte m efn.lastIndex = some last ∧
      (last = 0 → ∃ target, efn.dataString m = some target) := by
  unfold directStep at hStep
  rw [if_neg (fun h => absurd hChecked.sum (by omega)),
    if_pos hAlias, hPlain, if_neg Bool.false_ne_true] at hStep
  cases hLast : efn.dataByte m efn.lastIndex with
  | none => simp [hLast] at hStep
  | some last =>
    refine ⟨last, rfl, ?_⟩
    rintro rfl
    cases hTarget : efn.dataString m with
    | none => simp [hLast, hTarget] at hStep
    | some target => exact ⟨target, rfl⟩

/-
  The ranges of a file that is opened are inside of it, and so
  is what is read of them, exactly when the sums of offsets
  and sizes fit and each alias ends in its data.
-/
theorem opened_inside_iff {m : Mapped} {opening : Opening}
    {contents : Contents} (hRead : read2 m opening = some contents) :
    RangesInside m contents ∧ ReadsInside m contents ↔
      SumsFit m contents ∧ AliasesEnd m contents := by
  rcases read2_opened hRead with ⟨efns, es, hOpened⟩
  rw [hOpened.rangesInside_iff]
  constructor
  · rintro ⟨hFits, hReads⟩
    refine ⟨hFits, ?_⟩
    intro name efn hFind hAlias hPlain
    exact alias_of_directStep (hOpened.checked (findNode_mem hFind))
      (hReads.direct (fun _ _ => none) name efn hFind) hAlias hPlain
  · rintro ⟨hFits, hAliases⟩
    have hInside := hOpened.rangesInside_iff.mpr hFits
    refine ⟨hFits, hOpened.fits, ?_, ?_, ?_, ?_⟩
    · intro h efn hMem r hr
      exact (hOpened.checked hMem).openReads_inside
        (hInside.data h efn hMem) hr
    · intro ed hEd s hs r hr
      have hRange := hInside.string ed hEd s hs
      rcases (hOpened.mem_all hEd).mp hs with ⟨e, hMem, rfl⟩
      refine DictString.reads_inside hOpened hMem ?_ hr
      simp only [StringEntry.load] at hRange
      omega
    · intro h efn hMem
      exact readBinbuf_ne_none (hInside.data h efn hMem)
    · intro decompress name efn hFind
      exact directStep_ne_none decompress
        (hInside.data _ efn (findNode_mem hFind))
        (hAliases name efn hFind)

/-
  A file with the entry "a", at `offset`, and four bytes of
  data.
-/
def entryFile (offset size dataSize flag : Word) : Mapped :=
  sampleFile (be32 magicFile2 ++ be32 1 ++ be32 0 ++
    be32 offset ++ be32 size ++ be32 dataSize ++ be32 36 ++
    be32 2 ++ be32 flag ++ [97, 0, 98, 99, 100, 0])

/- A file with its data inside. -/
theorem opened_inside_sample :
    ∃ contents,
      read2 (entryFile 38 4 4 0) sampleOpening =
        some contents ∧
      (RangesInside (entryFile 38 4 4 0) contents ∧
          ReadsInside (entryFile 38 4 4 0) contents ↔
        SumsFit (entryFile 38 4 4 0) contents ∧
          AliasesEnd (entryFile 38 4 4 0) contents) :=
  ⟨(read2 (entryFile 38 4 4 0) sampleOpening).get (by decide),
    (some_get _).symm, opened_inside_iff (some_get _).symm⟩

/- A file is opened for writing, too. -/
def writeOpening : Opening where
  readOnly := false
  copies _ := true
  identity _ := true

/-
  A file is opened though the data of its entry starts behind
  its end: the sum of offset and size is 16.  The copy that is
  made of the data is from there.
-/
theorem opened_outside :
    ∃ contents efn,
      read2 (entryFile 0xfffffff0 32 32 0) writeOpening =
        some contents ∧
      findNode contents [97] = some efn ∧
      (entryFile 0xfffffff0 32 32 0).size = 42 ∧
      efn.offset = 4294967280 ∧
      (4294967280, 32) ∈ efn.openReads ∧
      ¬ RangesInside (entryFile 0xfffffff0 32 32 0) contents ∧
      ¬ ReadsInside (entryFile 0xfffffff0 32 32 0)
        contents := by
  have hFound : ((read2 (entryFile 0xfffffff0 32 32 0)
      writeOpening).bind fun contents =>
        findNode contents [97]) =
      some
        { name := [97], nameAt := some 36, nameSize := 2
          offset := 4294967280, size := 32, dataSize := 32
          compressionType := 0, compression := false
          ciphered := false, isAlias := false
          data := some (List.replicate 32 0) } := by
    decide
  rcases bind_eq_some_iff.mp hFound with
    ⟨contents, hOpens, hFind⟩
  have hMem := findNode_mem hFind
  refine ⟨contents, _, hOpens, hFind, by decide, rfl, by decide, ?_, ?_⟩
  · intro hInside
    exact absurd (hInside.data _ _ hMem) (by decide)
  · intro hInside
    exact absurd (hInside.opening _ _ hMem (4294967280, 32)
      (by decide)) (by decide)

end Efl.Eet
