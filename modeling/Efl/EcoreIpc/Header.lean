import Efl.EcoreIpc.Model

/-
  The encoded head of a message.

  The receiver decodes a head that it has received in full as
  the sender has encoded it.  The sender encodes it as long
  as the deltas fit in `dat`.

  Main declarations:
    * `EcoreIpc.wire`
    * `EcoreIpc.dltSize`
    * `EcoreIpc.encodeHead_ifFits`
    * `EcoreIpc.headSize_headWord`
-/

---
-- One Field
---

namespace Efl.EcoreIpc

open Bytes List

/- The bytes of a delta. -/
def wire (p : Dlt × Word) : List Byte :=
  if Dlt.set.code ≤ p.1.code then be32 p.2
  else if Dlt.add16.code ≤ p.1.code then
    be16 (p.2.setWidth 16)
  else if Dlt.add8.code ≤ p.1.code then
    [p.2.setWidth 8]
  else []

theorem length_wire (p : Dlt × Word) : (wire p).length = p.1.width := by
  unfold wire Dlt.width
  split
  · rfl
  · split
    · rfl
    · split <;> rfl

/- A field is stored while it fits. -/
theorem svEnc_cases (out prev : Word) {dat : List Byte}
    (hRoom : 4 + dat.length ≤ sizeofHead) :
    (svEnc out prev dat =
        some ((dltInt out prev).1, dat ++ wire (dltInt out prev)) ∧
      4 + dat.length + (dltInt out prev).1.width ≤ sizeofHead) ∨
    (svEnc out prev dat = none ∧ sizeofHead < 4 + dat.length + (dltInt out prev).1.width) := by
  rcases hDelta : dltInt out prev with ⟨md, d⟩
  have hWire : (wire (md, d)).length = md.width := length_wire (md, d)
  have hStore : ∀ bs, bs = wire (md, d) →
      (store dat bs = some (dat ++ wire (md, d)) ∧
        4 + dat.length + md.width ≤ sizeofHead) ∨
      (store dat bs = none ∧ sizeofHead < 4 + dat.length + md.width) := by
    rintro bs rfl
    unfold store
    split
    · left
      exact ⟨rfl, by omega⟩
    · right
      exact ⟨rfl, by omega⟩
  have hEq : svEnc out prev dat = (if md.width = 0 then some dat
        else store dat (wire (md, d))).bind fun dat => some (md, dat) := by
    simp only [svEnc, hDelta]
    cases md <;> rfl
  rw [hEq]
  by_cases hNone : md.width = 0
  · left
    have hNil : wire (md, d) = [] := eq_nil_of_length_eq_zero (by rw [hWire, hNone])
    simp [hNone, hNil, hRoom]
  · rw [if_neg hNone]
    rcases hStore _ rfl with ⟨hSome, hFits⟩ | ⟨hSome, hOver⟩
    · exact Or.inl ⟨by simp [hSome], hFits⟩
    · exact Or.inr ⟨by simp [hSome], hOver⟩

/- A field whose bytes follow is decoded. -/
theorem clDec_of_drop {buf : List Byte} {o s : Nat} {out prev d : Word}
    {md : Dlt} (hMode : md = (dltInt out prev).1)
    (hDrop : wire (dltInt out prev) <+: buf.drop (o + s)) :
    ∃ d', clDec buf o md prev s d = some (out, (s : Int) + md.width, d') := by
  have hDecodes := decodes_dltInt out prev d
  rcases hDelta : dltInt out prev with ⟨md', v⟩
  rw [hDelta] at hDrop hMode hDecodes
  simp only at hMode hDecodes
  subst hMode
  refine ⟨received md v d, ?_⟩
  simp only [wire] at hDrop
  unfold received Dlt.width
  unfold received at hDecodes
  unfold clDec
  rw [← Int.natCast_add]
  split
  · rename_i hSet
    simp only [if_pos hSet] at hDrop hDecodes
    simp only [read32_of_drop hDrop]
    simp [hDecodes]
  · rename_i hSet
    simp only [if_neg hSet] at hDrop hDecodes
    split
    · rename_i hAdd
      simp only [if_pos hAdd] at hDrop hDecodes
      simp only [read16_of_drop hDrop]
      simp [hDecodes]
    · rename_i hAdd
      simp only [if_neg hAdd] at hDrop hDecodes
      split
      · rename_i hByte
        simp only [if_pos hByte] at hDrop hDecodes
        have hRead := readAt_of_drop hDrop (k := 0) rfl
        simp only [Int.natCast_zero, Int.add_zero] at hRead
        simp only [hRead]
        simp [hDecodes]
      · rename_i hByte
        simp only [if_neg hByte] at hDecodes
        simp [hDecodes]

/- A field inside the buffer is read without a fault. -/
theorem clDec_isSome (buf : List Byte) (offset s : Int) (md : Dlt)
    (prev d : Word) (hLow : 0 ≤ offset + s)
    (hHigh : offset + s + md.width ≤ buf.length) :
    ∃ v d', clDec buf offset md prev s d = some (v, s + md.width, d') := by
  unfold Dlt.width at hHigh ⊢
  unfold clDec
  split
  · rename_i hSet
    rw [if_pos hSet] at hHigh
    rcases read32_isSome _ _ hLow hHigh with ⟨v, hRead⟩
    exact ⟨ddltInt v prev md, v, by simp [hRead]⟩
  · rename_i hSet
    rw [if_neg hSet] at hHigh
    split
    · rename_i hAdd
      rw [if_pos hAdd] at hHigh
      rcases read16_isSome hLow hHigh with ⟨v, hRead⟩
      exact ⟨ddltInt (v.setWidth 32) prev md, v.setWidth 32, by simp [hRead]⟩
    · rename_i hAdd
      rw [if_neg hAdd] at hHigh
      split
      · rename_i hByte
        rw [if_pos hByte] at hHigh
        rcases readAt_isSome buf _ hLow (by omega) with ⟨v, hRead⟩
        exact ⟨ddltInt (v.setWidth 32) prev md, v.setWidth 32, by simp [hRead]⟩
      · exact ⟨ddltInt d prev md, d, by simp⟩

---
-- The Whole Head
---

/- The modes of all fields in one word. -/
def headWord (msg prev : Head) : Word :=
  modeBits (dltInt msg.major prev.major).1 0 |||
    modeBits (dltInt msg.minor prev.minor).1 1 |||
    modeBits (dltInt msg.ref prev.ref).1 2 |||
    modeBits (dltInt msg.refTo prev.refTo).1 3 |||
    modeBits (dltInt msg.response prev.response).1 4 |||
    modeBits (dltInt msg.size prev.size).1 5

/- The number of bytes of the deltas of all fields. -/
def dltSize (msg prev : Head) : Nat :=
  (dltInt msg.major prev.major).1.width +
    (dltInt msg.minor prev.minor).1.width +
    (dltInt msg.ref prev.ref).1.width +
    (dltInt msg.refTo prev.refTo).1.width +
    (dltInt msg.response prev.response).1.width +
    (dltInt msg.size prev.size).1.width

/- These bytes. -/
def fieldBytes (msg prev : Head) : List Byte :=
  wire (dltInt msg.major prev.major) ++
    (wire (dltInt msg.minor prev.minor) ++
    (wire (dltInt msg.ref prev.ref) ++
    (wire (dltInt msg.refTo prev.refTo) ++
    (wire (dltInt msg.response prev.response) ++
      wire (dltInt msg.size prev.size)))))

/- The encoded head. -/
def headBytes (msg prev : Head) : List Byte :=
  be32 (headWord msg prev) ++ fieldBytes msg prev

theorem length_fieldBytes (msg prev : Head) : (fieldBytes msg prev).length = dltSize msg prev := by
  simp only [fieldBytes, dltSize, length_append, length_wire]
  omega

theorem length_headBytes (msg prev : Head) :
    (headBytes msg prev).length = 4 + dltSize msg prev := by
  simp [headBytes, length_fieldBytes]

/- The result `v` if `n` bytes fit in `dat`, a fault if not. -/
def IfFits (n : Nat) (r : Option (List Byte)) (v : List Byte) : Prop :=
  (r = some v ∧ n ≤ sizeofHead) ∨
    (r = none ∧ sizeofHead < n)

/- One field, and the code after it. -/
theorem svEnc_bind {out prev : Word} {dat v : List Byte} {n : Nat}
    {k : Dlt × List Byte → Option (List Byte)}
    (hRoom : 4 + dat.length ≤ sizeofHead) (hMore :
      4 + dat.length + (dltInt out prev).1.width ≤ n)
    (hNext : 4 + (dat ++ wire (dltInt out prev)).length ≤ sizeofHead →
      IfFits n (k ((dltInt out prev).1,
      dat ++ wire (dltInt out prev))) v) : IfFits n (svEnc out prev dat >>= k) v := by
  rcases svEnc_cases out prev hRoom with ⟨hSome, hFits⟩ | ⟨hNone, hOver⟩
  · rw [hSome]
    apply hNext
    rw [length_append, length_wire]
    omega
  · rw [hNone]
    exact Or.inr ⟨rfl, by omega⟩

/-
  A head is encoded if its deltas fit in `dat`; otherwise the
  sender writes behind the end of `dat`.
-/
theorem encodeHead_ifFits (msg prev : Head) :
    IfFits (4 + dltSize msg prev) (encodeHead msg prev) (headBytes msg prev) := by
  unfold encodeHead dltSize
  refine svEnc_bind (by decide) ?_ fun h₀ => ?_
  · simp only [length_nil]
    omega
  refine svEnc_bind h₀ ?_ fun h₁ => ?_
  · simp only [length_append, length_nil, length_wire]
    omega
  refine svEnc_bind h₁ ?_ fun h₂ => ?_
  · simp only [length_append, length_nil, length_wire]
    omega
  refine svEnc_bind h₂ ?_ fun h₃ => ?_
  · simp only [length_append, length_nil, length_wire]
    omega
  refine svEnc_bind h₃ ?_ fun h₄ => ?_
  · simp only [length_append, length_nil, length_wire]
    omega
  refine svEnc_bind h₄ ?_ fun h₅ => ?_
  · simp only [length_append, length_nil, length_wire]
    omega
  simp only [length_append, length_nil, length_wire] at h₅
  left
  constructor
  · simp [headBytes, headWord, fieldBytes]
  · omega

/- The bits of a mode, read back from a word of six modes. -/
theorem modeOf_headWord (msg prev : Head) :
    modeOf (headWord msg prev) 0 =
        (dltInt msg.major prev.major).1 ∧
      modeOf (headWord msg prev) 1 =
        (dltInt msg.minor prev.minor).1 ∧
      modeOf (headWord msg prev) 2 =
        (dltInt msg.ref prev.ref).1 ∧
      modeOf (headWord msg prev) 3 =
        (dltInt msg.refTo prev.refTo).1 ∧
      modeOf (headWord msg prev) 4 =
        (dltInt msg.response prev.response).1 ∧
      modeOf (headWord msg prev) 5 = (dltInt msg.size prev.size).1 := by
  unfold headWord
  generalize (dltInt msg.major prev.major).1 = m₀
  generalize (dltInt msg.minor prev.minor).1 = m₁
  generalize (dltInt msg.ref prev.ref).1 = m₂
  generalize (dltInt msg.refTo prev.refTo).1 = m₃
  generalize (dltInt msg.response prev.response).1 = m₄
  generalize (dltInt msg.size prev.size).1 = m₅
  have hMode : ∀ (md : Dlt) (w : Word) (n : Nat),
      (w.sshiftRight (4 * n) &&& 0xf).setWidth 4 = md.code → modeOf w n = md := by
    intro md w n hBits
    rw [modeOf, hBits, Dlt.ofCode_code]
  refine ⟨hMode _ _ _ ?_, hMode _ _ _ ?_, hMode _ _ _ ?_,
    hMode _ _ _ ?_, hMode _ _ _ ?_, hMode _ _ _ ?_⟩ <;>
  · unfold modeBits
    ext i hi
    interval_cases i <;> simp [BitVec.getElem_sshiftRight]

/- The receiver computes the size of the encoded head. -/
theorem headSize_headWord (msg prev : Head) :
    headSize (headWord msg prev) = 4 + (dltSize msg prev : Int) := by
  rcases modeOf_headWord msg prev with ⟨h₀, h₁, h₂, h₃, h₄, h₅⟩
  unfold headSize dltSize
  rw [h₀, h₁, h₂, h₃, h₄, h₅]
  omega

/- The two parts of bytes that follow position `o`. -/
theorem append_prefix_drop {buf xs ys : List Byte} {o : Nat}
    (hDrop : xs ++ ys <+: buf.drop o) : xs <+: buf.drop o ∧ ys <+: buf.drop (o + xs.length) := by
  rcases hDrop with ⟨rest, hDrop⟩
  refine ⟨⟨ys ++ rest, by rw [← hDrop]; simp⟩, rest, ?_⟩
  rw [← drop_drop, ← hDrop, append_assoc, drop_left]

/- The bytes of a buffer from an offset on. -/
theorem wrap_avail {buf : List Byte} {o : Nat} (hBuf : (buf.length : Int) ≤ CInt.intMax)
    (hOffset : o ≤ buf.length) :
    CInt.wrap ((buf.length : Int) - o) = ((buf.drop o).length : Int) := by
  unfold CInt.intMax at hBuf
  rw [length_drop, CInt.wrap_of_inRange]
  · omega
  · unfold CInt.InRange
    omega

/- A head whose bytes are in the buffer is decoded. -/
theorem decodeHead_of_drop {buf : List Byte} {o : Nat} {msg prev : Head}
    (hDrop : fieldBytes msg prev <+: buf.drop (o + 4)) :
    decodeHead buf o (headWord msg prev) prev = some (msg, 4 + (dltSize msg prev : Int)) := by
  rcases modeOf_headWord msg prev with ⟨h₀, h₁, h₂, h₃, h₄, h₅⟩
  unfold fieldBytes at hDrop
  rcases append_prefix_drop hDrop with ⟨b₀, hDrop⟩
  rcases append_prefix_drop hDrop with ⟨b₁, hDrop⟩
  rcases append_prefix_drop hDrop with ⟨b₂, hDrop⟩
  rcases append_prefix_drop hDrop with ⟨b₃, hDrop⟩
  rcases append_prefix_drop hDrop with ⟨b₄, b₅⟩
  simp only [length_wire, Nat.add_assoc] at b₀ b₁ b₂ b₃ b₄ b₅
  unfold decodeHead dltSize
  rcases clDec_of_drop (d := 0) h₀ b₀ with ⟨d₀, hField₀⟩
  rcases clDec_of_drop (d := d₀) h₁ b₁ with ⟨d₁, hField₁⟩
  rcases clDec_of_drop (d := d₁) h₂ b₂ with ⟨d₂, hField₂⟩
  rcases clDec_of_drop (d := d₂) h₃ b₃ with ⟨d₃, hField₃⟩
  rcases clDec_of_drop (d := d₃) h₄ b₄ with ⟨d₄, hField₄⟩
  rcases clDec_of_drop (d := d₄) h₅ b₅ with ⟨d₅, hField₅⟩
  rw [h₀] at hField₀
  rw [h₁] at hField₁
  rw [h₂] at hField₂
  rw [h₃] at hField₃
  rw [h₄] at hField₄
  rw [h₅] at hField₅
  push_cast at *
  simp only [← Int.add_assoc] at *
  rw [h₀, h₁, h₂, h₃, h₄, h₅]
  simp [hField₀, hField₁, hField₂, hField₃, hField₄, hField₅]

/- A head inside the buffer is read without a fault. -/
theorem decodeHead_isSome (buf : List Byte) (offset : Int)
    (head : Word) (prev : Head) (hLow : 0 ≤ offset)
    (hHigh : offset + headSize head ≤ buf.length) :
    ∃ msg, decodeHead buf offset head prev = some (msg, headSize head) := by
  unfold headSize at hHigh ⊢
  unfold decodeHead
  rcases clDec_isSome buf offset 4 (modeOf head 0)
      prev.major 0 (by omega) (by omega) with ⟨v₀, d₀, h₀⟩
  rcases clDec_isSome buf offset
      (4 + (modeOf head 0).width) (modeOf head 1) prev.minor d₀ (by omega)
      (by omega) with ⟨v₁, d₁, h₁⟩
  rcases clDec_isSome buf offset (4 + (modeOf head 0).width +
        (modeOf head 1).width) (modeOf head 2) prev.ref d₁ (by omega) (by omega) with ⟨v₂, d₂, h₂⟩
  rcases clDec_isSome buf offset (4 + (modeOf head 0).width +
        (modeOf head 1).width + (modeOf head 2).width) (modeOf head 3)
        prev.refTo d₂ (by omega) (by omega) with ⟨v₃, d₃, h₃⟩
  rcases clDec_isSome buf offset (4 + (modeOf head 0).width +
        (modeOf head 1).width + (modeOf head 2).width +
        (modeOf head 3).width) (modeOf head 4) prev.response d₃
        (by omega) (by omega) with ⟨v₄, d₄, h₄⟩
  rcases clDec_isSome buf offset (4 + (modeOf head 0).width +
        (modeOf head 1).width + (modeOf head 2).width +
        (modeOf head 3).width + (modeOf head 4).width) (modeOf head 5)
        prev.size d₄ (by omega) (by omega) with ⟨v₅, d₅, h₅⟩
  exact ⟨⟨v₀, v₁, v₂, v₃, v₄, v₅⟩, by
    simp only [h₀, h₁, h₂, h₃, h₄, h₅, Option.bind_eq_bind, Option.bind_some]⟩

end Efl.EcoreIpc
