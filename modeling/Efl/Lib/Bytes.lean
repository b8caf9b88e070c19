import Mathlib.Tactic.IntervalCases

/-
  Words in network byte order, and reads of a byte buffer at
  integer positions.

  A read outside the buffer is `none`.

  Main declarations:
    * `Bytes.be16` and `Bytes.be32`
    * `Bytes.readAt` and `Bytes.readRange`
    * `Bytes.ofBe32_be32`
    * `Bytes.read32_of_drop`
-/

---
-- Network Byte Order
---

namespace Efl.Bytes

open List

abbrev Byte := BitVec 8

abbrev Word := BitVec 32

/- The bytes of a C string before its NUL. -/
structure CString where
  chars : List Byte
  noNul : 0 ∉ chars

/- Membership of bytes is decided with this equality. -/
instance instLawfulBEqByte : LawfulBEq Byte := inferInstance

/- The strings "a" and "b" of samples -/
theorem noNul_a : (0 : Byte) ∉ [97] := by decide

theorem noNul_b : (0 : Byte) ∉ [98] := by decide

/- The bytes of `htons`. -/
def be16 (v : BitVec 16) : List Byte :=
  [(v >>> 8).setWidth 8, v.setWidth 8]

/- The bytes of `htonl`. -/
def be32 (v : Word) : List Byte :=
  [(v >>> 24).setWidth 8, (v >>> 16).setWidth 8,
    (v >>> 8).setWidth 8, v.setWidth 8]

/- `ntohs` of two bytes. -/
def ofBe16 (b₀ b₁ : Byte) : BitVec 16 :=
  b₀.setWidth 16 <<< 8 ||| b₁.setWidth 16

/- `ntohl` of four bytes. -/
def ofBe32 (b₀ b₁ b₂ b₃ : Byte) : Word :=
  b₀.setWidth 32 <<< 24 ||| b₁.setWidth 32 <<< 16 |||
    b₂.setWidth 32 <<< 8 ||| b₃.setWidth 32

theorem ofBe16_be16 (v : BitVec 16) : ofBe16 ((v >>> 8).setWidth 8) (v.setWidth 8) = v := by
  unfold ofBe16
  ext i hi
  interval_cases i <;> simp

theorem ofBe32_be32 (v : Word) :
    ofBe32 ((v >>> 24).setWidth 8) ((v >>> 16).setWidth 8)
      ((v >>> 8).setWidth 8) (v.setWidth 8) = v := by
  unfold ofBe32
  ext i hi
  interval_cases i <;> simp

@[simp] theorem length_be16 (v : BitVec 16) : (be16 v).length = 2 := rfl

@[simp] theorem length_be32 (v : Word) : (be32 v).length = 4 := rfl

---
-- Reads
---

/- One byte. -/
def readAt (buf : List Byte) (i : Int) : Option Byte :=
  if i < 0 then none else buf[i.toNat]?

/- Two bytes in network order. -/
def read16 (buf : List Byte) (i : Int) : Option (BitVec 16) := do
  let b₀ ← readAt buf i
  let b₁ ← readAt buf (i + 1)
  some (ofBe16 b₀ b₁)

/- Four bytes in network order. -/
def read32 (buf : List Byte) (i : Int) : Option Word := do
  let b₀ ← readAt buf i
  let b₁ ← readAt buf (i + 1)
  let b₂ ← readAt buf (i + 2)
  let b₃ ← readAt buf (i + 3)
  some (ofBe32 b₀ b₁ b₂ b₃)

/- A range of bytes, as `memcpy` reads it. -/
def readRange (buf : List Byte) (i len : Int) : Option (List Byte) :=
  if 0 ≤ i ∧ 0 ≤ len ∧ i + len ≤ buf.length then
    some ((buf.drop i.toNat).take len.toNat)
  else
    none

theorem readAt_natCast (buf : List Byte) (i : Nat) : readAt buf i = buf[i]? := by
  unfold readAt
  rw [if_neg (by omega), Int.toNat_natCast]

/- Reads inside the buffer do not fault. -/
theorem readAt_isSome (buf : List Byte) (i : Int) (hLow : 0 ≤ i)
    (hHigh : i < buf.length) : ∃ b, readAt buf i = some b := by
  have hIndex : i.toNat < buf.length := by omega
  refine ⟨buf[i.toNat], ?_⟩
  unfold readAt
  rw [if_neg (by omega), getElem?_eq_getElem hIndex]

variable {buf : List Byte}

theorem read16_isSome {i : Int} (hLow : 0 ≤ i)
    (hHigh : i + 2 ≤ buf.length) : ∃ v, read16 buf i = some v := by
  rcases readAt_isSome buf i hLow (by omega) with ⟨b₀, h₀⟩
  rcases readAt_isSome buf (i + 1) (by omega) (by omega) with ⟨b₁, h₁⟩
  exact ⟨ofBe16 b₀ b₁, by simp [read16, h₀, h₁]⟩

theorem read32_isSome (buf : List Byte) (i : Int) (hLow : 0 ≤ i)
    (hHigh : i + 4 ≤ buf.length) : ∃ v, read32 buf i = some v := by
  rcases readAt_isSome buf i hLow (by omega) with ⟨b₀, h₀⟩
  rcases readAt_isSome buf (i + 1) (by omega) (by omega) with ⟨b₁, h₁⟩
  rcases readAt_isSome buf (i + 2) (by omega) (by omega) with ⟨b₂, h₂⟩
  rcases readAt_isSome buf (i + 3) (by omega) (by omega) with ⟨b₃, h₃⟩
  exact ⟨ofBe32 b₀ b₁ b₂ b₃, by
    simp [read32, h₀, h₁, h₂, h₃]⟩

/- Bytes that follow position `o` are read there. -/
theorem readAt_of_drop {o : Nat} {bs : List Byte} (hDrop : bs <+: buf.drop o) {k : Nat} {b : Byte}
    (hByte : bs[k]? = some b) : readAt buf ((o : Int) + k) = some b := by
  rcases hDrop with ⟨rest, hDrop⟩
  have hIndex : k < bs.length := (List.getElem?_eq_some_iff.mp hByte).1
  have hAt : (buf.drop o)[k]? = some b := by
    rw [← hDrop, getElem?_append_left hIndex]
    exact hByte
  rw [getElem?_drop] at hAt
  rw [← Int.natCast_add, readAt_natCast]
  exact hAt

theorem read16_of_drop {o : Nat} {v : BitVec 16}
    (hDrop : be16 v <+: buf.drop o) : read16 buf o = some v := by
  have h₀ := readAt_of_drop hDrop (k := 0) rfl
  have h₁ := readAt_of_drop hDrop (k := 1) rfl
  simp only [Int.natCast_zero, Int.add_zero, Int.natCast_one] at h₀ h₁
  unfold read16
  rw [h₀, h₁]
  simp [ofBe16_be16]

theorem read32_of_drop {o : Nat} {v : Word}
    (hDrop : be32 v <+: buf.drop o) : read32 buf o = some v := by
  have h₀ := readAt_of_drop hDrop (k := 0) rfl
  have h₁ := readAt_of_drop hDrop (k := 1) rfl
  have h₂ := readAt_of_drop hDrop (k := 2) rfl
  have h₃ := readAt_of_drop hDrop (k := 3) rfl
  simp only [Int.natCast_zero, Int.add_zero, Int.natCast_one, Nat.cast_ofNat] at h₀ h₁ h₂ h₃
  unfold read32
  rw [h₀, h₁, h₂, h₃]
  simp [ofBe32_be32]

theorem readRange_of_drop {o : Nat} {bs : List Byte}
    (hDrop : bs <+: buf.drop o) (hNonempty : bs ≠ []) : readRange buf o bs.length = some bs := by
  rcases hDrop with ⟨rest, hDrop⟩
  have hSize := congrArg List.length hDrop
  simp only [length_append, length_drop] at hSize
  have hPos := length_pos_iff.mpr hNonempty
  unfold readRange
  rw [if_pos (by omega), Int.toNat_natCast, Int.toNat_natCast, ← hDrop, take_left]

theorem readRange_isSome (buf : List Byte) (i len : Int) (hLow : 0 ≤ i)
    (hLen : 0 ≤ len) (hHigh : i + len ≤ buf.length) :
    ∃ bs, readRange buf i len = some bs := ⟨_, if_pos ⟨hLow, hLen, hHigh⟩⟩

end Efl.Bytes
