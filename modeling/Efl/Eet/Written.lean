import Efl.Eet.Writer
import Efl.Lib.Lists

/-
  What the reader finds in the bytes of the writer.

  Main declarations:
    * `Mapped.At`
    * `Placed`, `placed`
    * `At.word`, `At.string`
    * `placed_entry`, `placed_name`, `placed_data`
-/

---
-- Bytes at a Position
---

namespace Efl.Eet

open Bytes List

namespace Mapped

/- These bytes are at a position. -/
def At (m : Mapped) (p : Nat) (bs : List Byte) : Prop :=
  ∀ i b, bs[i]? = some b → m.byte (p + i) = b

variable {m : Mapped} {p : Nat}

theorem at_append {as bs : List Byte} :
    m.At p (as ++ bs) ↔ m.At p as ∧ m.At (p + as.length) bs := by
  constructor
  · intro hAt
    refine ⟨?_, ?_⟩
    · intro i b hByte
      apply hAt
      rw [getElem?_append_left (List.getElem?_eq_some_iff.mp hByte).1]
      exact hByte
    · intro i b hByte
      rw [Nat.add_assoc]
      apply hAt
      rw [getElem?_append_right (by omega), Nat.add_sub_cancel_left]
      exact hByte
  · rintro ⟨hFirst, hSecond⟩ i b hByte
    by_cases hLess : i < as.length
    · rw [getElem?_append_left hLess] at hByte
      exact hFirst i b hByte
    · rw [getElem?_append_right (by omega)] at hByte
      have h := hSecond _ _ hByte
      rwa [Nat.add_assoc, Nat.add_sub_cancel' (by omega)] at h

/- A word. -/
theorem At.word {v : Word} (hAt : m.At p (be32 v)) : m.word p = v := by
  have h₀ := hAt 0 _ rfl
  have h₁ := hAt 1 _ rfl
  have h₂ := hAt 2 _ rfl
  have h₃ := hAt 3 _ rfl
  rw [Nat.add_zero] at h₀
  unfold Mapped.word
  rw [h₀, h₁, h₂, h₃]
  exact ofBe32_be32 v

/- A range. -/
theorem At.range {bs : List Byte} (hAt : m.At p bs) : m.range p bs.length = bs := by
  unfold Mapped.range
  apply ext_getElem (by simp)
  intro i hLeft hRight
  rw [getElem_map, getElem_range]
  exact hAt i _ (getElem?_eq_getElem hRight)

/- A string with its NUL. -/
theorem At.string {chars : List Byte}
    (hAt : m.At p (chars ++ [0])) (hNoNul : 0 ∉ chars) : m.string p (chars.length + 1) = chars := by
  have hRange := hAt.range
  rw [length_append, length_singleton] at hRange
  unfold Mapped.string
  rw [hRange, takeWhile_append_of_pos]
  · simp
  · intro b hb
    rw [decide_eq_true_iff]
    rintro rfl
    exact hNoNul hb

theorem At.nul {chars : List Byte} (hAt : m.At p (chars ++ [0])) :
    m.byte (p + chars.length) = 0 := hAt chars.length 0 (by simp)

end Mapped

---
-- Entries in Their Places
---

open Option

/- An entry, with the positions of its name and its data. -/
structure Placed where
  efn : FileNode
  nameAt : Nat
  offset : Nat

/- The positions that the writer gives to the entries. -/
def placed : Nat → Nat → List FileNode → List Placed
  | _, _, [] => []
  | stringsOffset, dataOffset, efn :: efns =>
    ⟨efn, stringsOffset, dataOffset⟩ ::
      placed (stringsOffset + efn.nameSize)
        (align (dataOffset + efn.size)) efns

@[simp] theorem length_placed (so d : Nat) (efns : List FileNode) :
    (placed so d efns).length = efns.length := by
  induction efns generalizing so d with
  | nil => rfl
  | cons efn efns ih => simp [placed, ih]

/- Only the positions are new. -/
theorem map_placed (so d : Nat) (efns : List FileNode) :
    (placed so d efns).map (fun x => x.efn) = efns := by
  induction efns generalizing so d with
  | nil => rfl
  | cons efn efns ih => simp [placed, ih]

variable {so d : Nat} {efns : List FileNode}

variable {x : Placed}

theorem placed_mem (hMem : x ∈ placed so d efns) : x.efn ∈ efns := by
  rw [← map_placed so d efns]
  exact List.mem_map_of_mem hMem

theorem length_writeEntries (so d : Nat) (efns : List FileNode) :
    (writeEntries so d efns).length = 24 * efns.length := by
  induction efns generalizing so d with
  | nil => rfl
  | cons efn efns ih =>
    simp only [writeEntries, length_append, ih, length_be32, length_cons]
    omega

variable {m : Mapped} {p i : Nat}

/- The words of an entry. -/
theorem placed_entry (hAt : m.At p (writeEntries so d efns))
    (hPlaced : (placed so d efns)[i]? = some x) :
    m.word (p + 24 * i) = BitVec.ofNat 32 x.offset ∧
      m.word (p + 24 * i + 4) = BitVec.ofNat 32 x.efn.size ∧
      m.word (p + 24 * i + 8) = BitVec.ofNat 32 x.efn.dataSize ∧
      m.word (p + 24 * i + 12) = BitVec.ofNat 32 x.nameAt ∧
      m.word (p + 24 * i + 16) = BitVec.ofNat 32 x.efn.nameSize ∧
      m.word (p + 24 * i + 20) = x.efn.flag := by
  induction efns generalizing p so d i with
  | nil => simp [placed] at hPlaced
  | cons efn efns ih =>
    simp only [writeEntries, Mapped.at_append, length_append, length_be32, and_assoc] at hAt
    rcases hAt with ⟨h₀, h₁, h₂, h₃, h₄, h₅, hRest⟩
    cases i with
    | zero =>
      obtain rfl := some.inj hPlaced
      exact ⟨h₀.word, h₁.word, h₂.word, h₃.word, h₄.word, h₅.word⟩
    | succ i =>
      have h := ih hRest (i := i) hPlaced
      rw [show p + 24 * (i + 1) = p + (4 + (4 + (4 + (4 + (4 + 4))))) + 24 * i by omega]
      exact h

/- The sizes of the names. -/
theorem length_writeNames
    (hSize : ∀ efn ∈ efns, efn.nameSize = efn.name.length + 1) :
    (writeNames efns).length = (efns.map fun efn => efn.nameSize).sum := by
  unfold writeNames
  rw [length_flatMap]
  congr 1
  apply map_congr_left
  intro efn hMem
  rw [hSize efn hMem]
  simp

/- The name of an entry. -/
theorem placed_name (hAt : m.At so (writeNames efns))
    (hSize : ∀ efn ∈ efns, efn.nameSize = efn.name.length + 1)
    (hPlaced : x ∈ placed so d efns) :
    m.At x.nameAt (x.efn.name ++ [0]) ∧ so ≤ x.nameAt ∧
      x.nameAt + x.efn.nameSize ≤ so + (writeNames efns).length := by
  induction efns generalizing so d with
  | nil => simp [placed] at hPlaced
  | cons efn efns ih =>
    have hHead := hSize efn (by simp)
    rw [writeNames, flatMap_cons, ← writeNames, Mapped.at_append, length_append] at hAt
    rw [writeNames, flatMap_cons, ← writeNames, length_append, length_append, length_singleton]
    rcases mem_cons.mp hPlaced with rfl | hRest
    · refine ⟨hAt.1, le_refl _, ?_⟩
      dsimp only
      omega
    · have hNext := hAt.2
      rw [length_singleton, ← hHead] at hNext
      rcases ih hNext (fun e he => hSize e (by simp [he])) hRest with ⟨hName, hLow, hHigh⟩
      exact ⟨hName, by omega, by omega⟩

theorem le_align (n : Nat) : n ≤ align n := by
  unfold align
  omega

/- The data of an entry has the size that is written. -/
def FileNode.Sized (efn : FileNode) : Prop :=
  ∃ data, efn.data = some data ∧ efn.size = data.length ∧
    0 < efn.size

/- The data of an entry. -/
theorem placed_data {pad : Nat} (hAt : m.At p (writeData p pad efns))
    (hSized : ∀ efn ∈ efns, efn.Sized)
    (hPlaced : x ∈ placed so (p + pad) efns) :
    m.At x.offset (x.efn.data.getD []) ∧ p ≤ x.offset ∧
      x.offset + x.efn.size ≤ p + (writeData p pad efns).length := by
  induction efns generalizing so p pad with
  | nil => simp [placed] at hPlaced
  | cons efn efns ih =>
    rcases hSized efn (by simp) with ⟨data, hData, hLen, -⟩
    simp only [writeData, Mapped.at_append, length_append,
      zeros, length_replicate, hData, getD_some] at hAt ⊢
    rcases hAt with ⟨⟨-, hFirst⟩, hNext⟩
    rcases mem_cons.mp hPlaced with rfl | hRest
    · refine ⟨?_, by simp, ?_⟩
      · simpa [hData] using hFirst
      · dsimp only
        omega
    · rw [← hLen, ← Nat.add_assoc] at hNext
      have hAlign := le_align (p + pad + efn.size)
      rw [show align (p + pad + efn.size) = p + pad + efn.size + (align
        (p + pad + efn.size) - (p + pad + efn.size)) by omega] at hRest
      rcases ih hNext (fun e he => hSized e (by simp [he])) hRest with ⟨hOwn, hLow, hHigh⟩
      exact ⟨hOwn, by omega, by omega⟩

/- The last entry ends where the file ends. -/
theorem placed_last (so p pad : Nat)
    (hSized : ∀ efn ∈ efns, efn.Sized) (hSome : efns ≠ []) :
    ∃ x ∈ placed so (p + pad) efns, x.offset + x.efn.size = p + (writeData p pad efns).length := by
  induction efns generalizing so p pad with
  | nil => exact (hSome rfl).elim
  | cons efn efns ih =>
    rcases hSized efn (by simp) with ⟨data, hData, hLen, -⟩
    simp only [writeData, length_append, zeros, length_replicate, hData, getD_some]
    cases hRest : efns with
    | nil =>
      refine ⟨_, mem_cons_self .., ?_⟩
      simp only [writeData, length_nil]
      omega
    | cons efn' efns' =>
      rw [← hRest]
      have hAlign := le_align (p + pad + efn.size)
      rcases ih (so + efn.nameSize) (p + pad + efn.size)
        (align (p + pad + efn.size) - (p + pad + efn.size)) (fun e he =>
        hSized e (by simp [he])) (by simp [hRest]) with ⟨x, hx, hEnd⟩
      refine ⟨x, mem_cons_of_mem _ ?_, ?_⟩
      · rwa [Nat.add_sub_cancel' hAlign] at hx
      · omega

---
-- Strings in Their Places
---

/- The positions that the writer gives to the strings. -/
def stringOffsets : Nat → List DictString → List Nat
  | _, [] => []
  | offset, s :: ss => offset :: stringOffsets (offset + s.len.toNat) ss

@[simp] theorem length_stringOffsets
    (offset : Nat) (ss : List DictString) : (stringOffsets offset ss).length = ss.length := by
  induction ss generalizing offset with
  | nil => rfl
  | cons s ss ih => simp [stringOffsets, ih]

variable {ss : List DictString}

variable {s : DictString}

theorem exists_offset {j : Nat} (offset : Nat)
    (hString : ss[j]? = some s) : ∃ o, (stringOffsets offset ss)[j]? = some o := by
  have hBound := (List.getElem?_eq_some_iff.mp hString).1
  exact ⟨_, getElem?_eq_getElem (by rwa [length_stringOffsets])⟩

theorem length_writeStrings (hash : Nat → Int) (offset j : Nat)
    (ss : List DictString) : (writeStrings hash offset j ss).length = 20 * ss.length := by
  induction ss generalizing offset j with
  | nil => rfl
  | cons s ss ih =>
    simp only [writeStrings, length_append, ih, length_be32, length_cons]
    omega

/- The words of a string. -/
theorem string_words {hash : Nat → Int} {offset j o : Nat}
    (hAt : m.At p (writeStrings hash offset j ss)) (hString : ss[i]? = some s)
    (hOffset : (stringOffsets offset ss)[i]? = some o) :
    stringEntry m (p + 20 * i) =
      { hash := (BitVec.ofNat 32 s.hash).toNat
        offset := (BitVec.ofNat 32 o).toNat
        len := (BitVec.ofInt 32 s.len).toInt
        prev := if hash s.hash = ((j + i : Nat) : Int) then -1 else 0
        next := (BitVec.ofInt 32 s.next).toInt } := by
  induction ss generalizing p offset j i with
  | nil => simp at hString
  | cons s' ss ih =>
    simp only [writeStrings, Mapped.at_append, length_append, length_be32, and_assoc] at hAt
    rcases hAt with ⟨h₀, h₁, h₂, h₃, h₄, hRest⟩
    cases i with
    | zero =>
      obtain rfl := some.inj hString
      obtain rfl := some.inj hOffset
      unfold stringEntry
      rw [Nat.mul_zero, Nat.add_zero, h₀.word, h₁.word, h₂.word, h₃.word, h₄.word]
      simp only [StringEntry.mk.injEq, Nat.add_zero, true_and, and_true]
      split <;> rfl
    | succ i =>
      have h := ih hRest (i := i) hString hOffset
      rw [show p + 20 * (i + 1) =
        p + (4 + (4 + (4 + (4 + 4)))) + 20 * i by omega, h,
        show j + 1 + i = j + (i + 1) by omega]

/- The bytes of a string have the size that is written. -/
def DictString.Sized (s : DictString) : Prop :=
  s.len = s.str.chars.length + 1 ∧ 0 ∉ s.str.chars

theorem length_writeChars (hSized : ∀ s ∈ ss, s.Sized) :
    (writeChars ss).length = (ss.map fun s => s.len.toNat).sum := by
  unfold writeChars
  rw [length_flatMap]
  congr 1
  apply map_congr_left
  intro s hMem
  rw [(hSized s hMem).1]
  simp

/- The bytes of a string. -/
theorem string_chars {o : Nat} (hAt : m.At p (writeChars ss))
    (hSized : ∀ s ∈ ss, s.Sized) (hString : ss[i]? = some s)
    (hOffset : (stringOffsets p ss)[i]? = some o) :
    m.At o (s.str.chars ++ [0]) ∧ p ≤ o ∧ o + s.len.toNat ≤ p + (writeChars ss).length := by
  induction ss generalizing p i with
  | nil => simp at hString
  | cons s' ss ih =>
    have hHead := (hSized s' (by simp)).1
    rw [writeChars, flatMap_cons, ← writeChars, Mapped.at_append, length_append] at hAt
    rw [writeChars, flatMap_cons, ← writeChars, length_append, length_append, length_singleton]
    cases i with
    | zero =>
      obtain rfl := some.inj hString
      obtain rfl := some.inj hOffset
      exact ⟨hAt.1, le_refl _, by omega⟩
    | succ i =>
      have hNext := hAt.2
      rw [length_singleton,
        show s'.str.chars.length + 1 = s'.len.toNat by omega] at hNext
      rcases ih hNext (fun e he => hSized e (by simp [he])) hString hOffset with ⟨hOwn, hLow, hHigh⟩
      exact ⟨hOwn, by omega, by omega⟩

end Efl.Eet
