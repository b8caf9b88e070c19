import Efl.Io.Buffer.Model

/-
  What is in a buffer, and what each call does to it.

  Main declarations:
    * `File`, with its operations
    * `Represents`
    * `realloc_cases`, `realloc_spec`
    * `write_spec`, `read_spec`, `resize_spec`, `limitSet_spec`
-/

---
-- Files
---

namespace Efl.Io.Buffer

open Bytes List

/-
  A byte array with a position to read from and one to write
  to; this is what a buffer is for.
-/
structure File where
  contents : List Byte
  read : Nat
  write : Nat
  limit : Nat
  readonly : Bool

namespace File

def empty : File where
  contents := []
  read := 0
  write := 0
  limit := 0
  readonly := false

/- Cut off, or filled up with zeros -/
def truncate (f : File) (size : Nat) : File :=
  { f with
    contents := f.contents.take size ++
      List.replicate (size - f.contents.length) 0
    read := min f.read size
    write := min f.write size }

def readSet (f : File) (position : Nat) : File :=
  if position ≤ f.contents.length then
    { f with read := position }
  else
    f

/- What is only read is written to at its end. -/
def writeSet (f : File) (position : Nat) : File :=
  if position ≤ f.contents.length ∧ f.readonly = false then
    { f with write := position }
  else
    f

/- The bytes that come next, and the position after them -/
def next (f : File) (len : Nat) : List Byte :=
  (f.contents.drop f.read).take len

def advance (f : File) (len : Nat) : File :=
  { f with read := f.read + (f.next len).length }

def overwrite (f : File) (bs : List Byte) : File :=
  { f with
    contents := f.contents.take f.write ++
      (bs ++ f.contents.drop (f.write + bs.length))
    write := f.write + bs.length }

def resize (f : File) (size : Nat) : File :=
  if f.readonly ∧ f.contents.length < size then f
  else f.truncate size

def limitSet (f : File) (limit : Nat) : File :=
  if f.readonly ∨ f.limit = limit then f
  else if 0 < limit ∧ limit < f.contents.length then
    ({ f with limit := limit }).truncate limit
  else
    { f with limit := limit }

def adoptReadonly (f : File) (slice : List Byte) : File :=
  { f with
    contents := slice
    read := min f.read slice.length
    write := slice.length
    readonly := true }

def adoptReadwrite (f : File) (slice : List Byte) : File :=
  { f with
    contents := slice
    read := min f.read slice.length
    write := min f.write slice.length
    readonly := false }

def target (f : File) (offset : Int) : Whence → Int
  | .start => offset
  | .current => offset + max f.read f.write
  | .end => offset + f.contents.length

def seek (f : File) (offset : Int) (whence : Whence) : File :=
  let position := f.target offset whence
  if 0 ≤ position then
    (f.readSet position.toNat).writeSet position.toNat
  else
    f

/- The positions are in the array. -/
structure Valid (f : File) : Prop where
  read : f.read ≤ f.contents.length
  write : f.write ≤ f.contents.length
  last : f.readonly = true → f.write = f.contents.length

theorem length_truncate (f : File) (size : Nat) : (f.truncate size).contents.length = size := by
  simp only [truncate, length_append, length_take, length_replicate]
  omega

theorem truncate_of_le (f : File) {size : Nat}
    (hLe : size ≤ f.contents.length) :
    f.truncate size =
      { f with
        contents := f.contents.take size
        read := min f.read size
        write := min f.write size } := by
  unfold truncate
  rw [Nat.sub_eq_zero_of_le hLe, replicate_zero, append_nil]

theorem Valid.truncate_of_ge {f : File} (hValid : f.Valid)
    {size : Nat} (hLe : f.contents.length ≤ size) :
    f.truncate size =
      { f with
        contents := f.contents ++
          List.replicate (size - f.contents.length) 0 } := by
  unfold truncate
  rw [take_of_length_le hLe, Nat.min_eq_left (hValid.read.trans hLe),
    Nat.min_eq_left (hValid.write.trans hLe)]

theorem Valid.truncate_self {f : File} (hValid : f.Valid) : f.truncate f.contents.length = f := by
  rw [hValid.truncate_of_ge (Nat.le_refl _), Nat.sub_self, replicate_zero, append_nil]

/- To cut off keeps the positions in the array. -/
theorem Valid.truncate {f : File} (hValid : f.Valid) {size : Nat}
    (hOpen : f.readonly = true → size ≤ f.contents.length) : (f.truncate size).Valid where
  read := by
    rw [length_truncate]
    exact Nat.min_le_right _ _
  write := by
    rw [length_truncate]
    exact Nat.min_le_right _ _
  last := by
    intro hRead
    rw [length_truncate]
    show min f.write size = size
    rw [hValid.last hRead]
    exact Nat.min_eq_right (hOpen hRead)

theorem Valid.overwrite {f : File} (hValid : f.Valid)
    (hOpen : f.readonly = false) (bs : List Byte) : (f.overwrite bs).Valid := by
  have hLength : (f.overwrite bs).contents.length =
      max f.contents.length (f.write + bs.length) := by
    have hWrite := hValid.write
    simp only [File.overwrite, length_append, length_take, length_drop]
    omega
  refine ⟨?_, ?_, fun hRead => ?_⟩
  · rw [hLength]
    exact hValid.read.trans (Nat.le_max_left _ _)
  · rw [hLength]
    exact Nat.le_max_right _ _
  · exact absurd (hOpen.symm.trans hRead) (by simp)

end File

---
-- Blocks
---

/- The used bytes are at the start of the block. -/
structure Holds (pd : Data) (contents : List Byte) : Prop where
  bytes : contents <+: pd.bytes
  used : pd.used = contents.length
  block : pd.allocated ≤ CSize.blockMax

/- The buffer has the contents and the positions of a file. -/
structure Represents (pd : Data) (f : File) : Prop where
  holds : Holds pd f.contents
  read : pd.positionRead = f.read
  write : pd.positionWrite = f.write
  limit : pd.limit = f.limit
  readonly : pd.readonly = f.readonly
  valid : f.Valid

variable {pd : Data} {f : File} {contents : List Byte}

theorem Holds.used_le (hHolds : Holds pd contents) : pd.used ≤ pd.allocated := by
  rw [hHolds.used]
  exact hHolds.bytes.length_le

variable {size : Nat}

theorem Holds.take (hHolds : Holds pd contents) (hLe : size ≤ pd.used) :
    Holds { pd with used := size } (contents.take size) where
  bytes := (List.take_prefix _ _).trans hHolds.bytes
  used := by
    rw [length_take, ← hHolds.used, Nat.min_eq_left hLe]
  block := hHolds.block

/- The size that `realloc` is asked for -/
def target (pd : Data) (size : Nat) : Nat :=
  if 0 < pd.limit ∧ pd.limit < size then pd.limit else size

theorem clip_of_le (hLe : pd.used ≤ size) : clip pd size = pd := if_neg (Nat.not_lt.mpr hLe)

theorem clip_of_lt (hLess : size < pd.used)
    (hOpen : pd.readonly = false) :
    clip pd size =
      { pd with
        used := size
        positionRead := min pd.positionRead size
        positionWrite := min pd.positionWrite size } := by
  unfold clip positionReadSet positionWriteSet
  rw [if_pos hLess]
  by_cases hRead : size < pd.positionRead <;> by_cases hWrite : size < pd.positionWrite <;>
    simp only [hRead, hWrite, hOpen, Nat.not_lt_of_gt hLess,
      if_true, if_false, and_false, Bool.false_eq_true, Data.mk.injEq, true_and, and_true] <;> omega

/-
  What `realloc` does: nothing, or what is above the size is
  cut off, and the block is another one if there is memory.
-/
theorem realloc_cases (memory : Option (Nat → Byte))
    (hOpen : pd.readonly = false) (size : Nat) :
    (pd.allocated = target pd size ∧ realloc memory pd size = pd) ∨
    (pd.allocated ≠ target pd size ∧ ∃ bytes, realloc memory pd size =
          { clip pd (target pd size) with bytes := bytes } ∧
        ((bytes = pd.bytes ∧ (memory = none ∨ CSize.blockMax < target pd
            size)) ∨ (bytes.length = target pd size ∧ target pd size ≤
            CSize.blockMax ∧ ∀ contents, contents <+: pd.bytes →
            contents.length ≤ target pd size → contents <+: bytes))) :=
            by
  have hBytes : (clip pd (target pd size)).bytes = pd.bytes := by
    by_cases hLe : pd.used ≤ target pd size
    · rw [clip_of_le hLe]
    · rw [clip_of_lt (Nat.lt_of_not_le hLe) hOpen]
  unfold realloc
  simp only [hOpen, Bool.false_eq_true, if_false]
  rw [← target]
  by_cases hSame : pd.allocated = target pd size
  · exact Or.inl ⟨hSame, if_pos hSame⟩
  · refine Or.inr ⟨hSame, ?_⟩
    rw [if_neg hSame]
    by_cases hZero : target pd size = 0
    · rw [if_pos hZero]
      refine ⟨[], rfl, Or.inr ⟨hZero.symm, ?_, ?_⟩⟩
      · rw [hZero]
        exact Nat.zero_le _
      · intro contents _ hNone
        rw [hZero, Nat.le_zero, length_eq_zero_iff] at hNone
        exact hNone ▸ List.nil_prefix
    · rw [if_neg hZero]
      cases memory with
      | none =>
        exact ⟨pd.bytes, by rw [← hBytes], Or.inl ⟨rfl, Or.inl rfl⟩⟩
      | some junk =>
        by_cases hMax : target pd size ≤ CSize.blockMax
        · simp only [if_pos hMax]
          refine ⟨_, rfl, Or.inr ⟨Block.length_realloc _ _ _, hMax, ?_⟩⟩
          rintro contents ⟨rest, hParts⟩ hLe
          rcases Block.realloc_append junk contents rest hLe with ⟨rest', hRealloc⟩
          rw [hBytes, ← hParts, hRealloc]
          exact prefix_append _ _
        · simp only [if_neg hMax]
          exact ⟨pd.bytes, by rw [← hBytes], Or.inl ⟨rfl, Or.inr (Nat.lt_of_not_le hMax)⟩⟩

---
-- Positions and Limits
---

open Option

theorem Represents.bounds (hRep : Represents pd f) :
    pd.positionRead ≤ pd.used ∧ pd.positionWrite ≤ pd.used ∧
      pd.used ≤ pd.allocated ∧ pd.allocated ≤ CSize.blockMax := by
  refine ⟨?_, ?_, hRep.holds.used_le, hRep.holds.block⟩
  · rw [hRep.read, hRep.holds.used]
    exact hRep.valid.read
  · rw [hRep.write, hRep.holds.used]
    exact hRep.valid.write

theorem represents_new : Represents .new .empty where
  holds := ⟨List.nil_prefix, rfl, Nat.zero_le _⟩
  read := rfl
  write := rfl
  limit := rfl
  readonly := rfl
  valid := ⟨Nat.le_refl _, Nat.le_refl _, fun _ => rfl⟩

theorem positionReadSet_spec (hRep : Represents pd f) (position : Nat) :
    Represents (positionReadSet pd position).1 (f.readSet position) := by
  have hUsed := hRep.holds.used
  have hHolds := hRep.holds
  unfold positionReadSet File.readSet
  by_cases hLe : position ≤ f.contents.length
  · rw [if_neg (by omega), if_pos hLe]
    exact ⟨⟨hHolds.bytes, hHolds.used, hHolds.block⟩, rfl, hRep.write,
      hRep.limit, hRep.readonly, hLe, hRep.valid.write, hRep.valid.last⟩
  · rw [if_pos (by omega), if_neg hLe]
    exact hRep

theorem positionWriteSet_spec (hRep : Represents pd f)
    (position : Nat) : Represents (positionWriteSet pd position).1 (f.writeSet position) := by
  have hUsed := hRep.holds.used
  have hHolds := hRep.holds
  unfold positionWriteSet File.writeSet
  by_cases hLe : position ≤ f.contents.length
  · cases hRead : f.readonly with
    | false =>
      rw [if_neg (by simp [hRep.readonly, hRead]), if_neg (by omega), if_pos ⟨hLe, rfl⟩]
      refine ⟨⟨hHolds.bytes, hHolds.used, hHolds.block⟩,
        hRep.read, rfl, hRep.limit, hRep.readonly.trans hRead,
        hRep.valid.read, hLe, fun hYes => (nomatch hYes)⟩
    | true =>
      -- The position is already at the end.
      have hLast := hRep.valid.last hRead
      have hSame : ¬ (position ≤ f.contents.length ∧ true = false) := by simp
      rw [if_neg hSame]
      by_cases hLess : position < f.contents.length
      · rw [if_pos ⟨by omega, hRep.readonly.trans hRead⟩]
        exact hRep
      · rw [if_neg (by omega), if_neg (by omega)]
        exact ⟨⟨hHolds.bytes, hHolds.used, hHolds.block⟩, hRep.read,
          by dsimp only; omega, hRep.limit, hRep.readonly, hRep.valid⟩
  · rw [if_neg (by omega), if_pos (by omega), if_neg (fun hBoth => hLe hBoth.1)]
    exact hRep

/- A sum that is too large is below 0, and so is refused. -/
theorem offsetAdd_spec {offset : Int} {n : Nat} (hLow : -CSize.blockMax - 1 ≤ offset)
    (hHigh : offset ≤ CSize.blockMax) (hBlock : n ≤ CSize.blockMax) :
    offsetAdd offset n = offset + n ∨ (offsetAdd offset n < 0 ∧ CSize.blockMax < offset + n) := by
  unfold CSize.blockMax at *
  unfold offsetAdd CSize.bound Int.bmod
  dsimp only
  split <;> omega

/- Either the offset is the exact one, or both are refused. -/
theorem seekOffset_spec (hRep : Represents pd f) {offset : Int}
    (hLow : -CSize.blockMax - 1 ≤ offset)
    (hHigh : offset ≤ CSize.blockMax) (whence : Whence) :
    seekOffset pd offset whence = f.target offset whence ∨
      (seekOffset pd offset whence < 0 ∧ CSize.blockMax < f.target offset whence) := by
  have hBounds := hRep.bounds
  have hGet : positionGet pd = max f.read f.write := by
    unfold positionGet
    rw [hRep.read, hRep.write]
    split <;> omega
  cases whence with
  | start => exact Or.inl rfl
  | current =>
    have hPosition : positionGet pd ≤ CSize.blockMax := by
      rw [hGet, ← hRep.read, ← hRep.write]
      omega
    unfold seekOffset File.target
    rw [hGet] at hPosition ⊢
    exact offsetAdd_spec hLow hHigh hPosition
  | «end» =>
    unfold seekOffset File.target
    rw [hRep.holds.used] at hBounds ⊢
    exact offsetAdd_spec hLow hHigh (by omega)

/- A position after the end changes nothing. -/
theorem File.set_of_lt {position : Nat}
    (hPast : f.contents.length < position) : (f.readSet position).writeSet position = f := by
  unfold File.readSet File.writeSet
  rw [if_neg (Nat.not_le.mpr hPast)]
  exact if_neg fun hBoth => Nat.not_le.mpr hPast hBoth.1

section

variable (hRep : Represents pd f)

include hRep

theorem seek_spec {offset : Int} (hLow : -CSize.blockMax - 1 ≤ offset)
    (hHigh : offset ≤ CSize.blockMax) (whence : Whence) :
    Represents (seek pd offset whence).1 (f.seek offset whence) := by
  have hBounds := hRep.bounds
  have hUsed := hRep.holds.used
  unfold seek File.seek
  dsimp only
  rcases seekOffset_spec hRep hLow hHigh whence with hSame | ⟨hNeg, hLarge⟩
  · rw [hSame]
    by_cases hNeg : f.target offset whence < 0
    · rw [if_pos hNeg, if_neg (by omega)]
      exact hRep
    · have hZero : 0 ≤ f.target offset whence := by omega
      rw [if_neg hNeg, if_pos hZero]
      by_cases hPast : pd.used < (f.target offset whence).toNat
      · rw [if_pos hPast, File.set_of_lt (by rw [← hUsed]; exact hPast)]
        exact hRep
      · rw [if_neg hPast]
        exact positionWriteSet_spec (positionReadSet_spec hRep _) _
  · have hZero : 0 ≤ f.target offset whence := by omega
    rw [if_pos hNeg, if_pos hZero, File.set_of_lt (by omega)]
    exact hRep

---
-- Reallocation
---

/- What does not fit in the size is cut off. -/
theorem realloc_spec (hOpen : pd.readonly = false) (memory : Option (Nat → Byte))
    (size : Nat) :
    Represents (realloc memory pd size)
      (if target pd size < f.contents.length then
        f.truncate (target pd size)
      else
        f) := by
  have hUsed := hRep.holds.used
  have hRoom := hRep.holds.used_le
  have hBlock := hRep.holds.block
  rcases realloc_cases memory hOpen size with ⟨hSame, hRealloc⟩ | ⟨-, bytes, hRealloc, hBytes⟩
  · rw [if_neg (by omega), hRealloc]
    exact hRep
  -- The block has the bytes below the size.
  have hKept : ∀ contents, contents <+: pd.bytes →
      contents.length ≤ target pd size → contents <+: bytes := by
    intro contents hPrefix hLe
    rcases hBytes with ⟨rfl, -⟩ | ⟨-, -, hAll⟩
    · exact hPrefix
    · exact hAll contents hPrefix hLe
  have hMax : bytes.length ≤ CSize.blockMax := by
    rcases hBytes with ⟨rfl, -⟩ | ⟨hLength, hLe, -⟩
    · exact hBlock
    · exact hLength.trans_le hLe
  rw [hRealloc]
  by_cases hLess : target pd size < f.contents.length
  · rw [if_pos hLess, clip_of_lt (by omega) hOpen]
    have hValid : (f.truncate (target pd size)).Valid :=
      hRep.valid.truncate fun _ => Nat.le_of_lt hLess
    rw [File.truncate_of_le f (Nat.le_of_lt hLess)] at hValid ⊢
    have hLength : (f.contents.take (target pd size)).length = target pd size := by
      rw [length_take]
      omega
    refine ⟨⟨hKept _ ?_ (Nat.le_of_eq hLength), hLength.symm,
      hMax⟩, ?_, ?_, hRep.limit, hRep.readonly, hValid⟩
    · exact (List.take_prefix _ _).trans hRep.holds.bytes
    · dsimp only
      rw [hRep.read]
    · dsimp only
      rw [hRep.write]
  · rw [if_neg hLess, clip_of_le (by omega)]
    exact ⟨⟨hKept _ hRep.holds.bytes (Nat.not_lt.mp hLess), hUsed,
      hMax⟩, hRep.read, hRep.write, hRep.limit, hRep.readonly, hRep.valid⟩

/- A size that the limit allows to be as large as is used. -/
theorem realloc_same
    (hOpen : pd.readonly = false) (memory : Option (Nat → Byte)) (hSize : pd.used ≤ size)
    (hLimit : pd.limit = 0 ∨ pd.used ≤ pd.limit) : Represents (realloc memory pd size) f := by
  have hRealloc := realloc_spec hRep hOpen memory size
  have hUsed := hRep.holds.used
  have hNot : ¬ target pd size < f.contents.length := by
    unfold target
    split <;> omega
  rw [if_neg hNot] at hRealloc
  exact hRealloc

theorem preallocate_spec (alloc : Alloc)
    (hSize : pd.readonly = true ∨ size ≤ pd.allocated ∨
    (Roundable size ∧ (pd.limit = 0 ∨ pd.used ≤ pd.limit))) :
    Represents (preallocate alloc pd size) f := by
  have hRoom := hRep.holds.used_le
  unfold preallocate
  by_cases hRead : pd.readonly = true
  · rw [if_pos hRead]
    exact hRep
  rw [if_neg hRead]
  by_cases hLess : pd.allocated < size
  · rw [if_pos hLess]
    rcases hSize with hYes | hFits | ⟨hRound, hLimit⟩
    · exact absurd hYes hRead
    · omega
    · have hAbove := lt_rounded hRound
      exact realloc_same hRep (Bool.eq_false_iff.mpr hRead) (alloc 0) (by omega) hLimit
  · rw [if_neg hLess]
    exact hRep

theorem limitSet_spec (alloc : Alloc)
    (limit : Nat) : Represents (limitSet alloc pd limit) (f.limitSet limit) := by
  have hUsed := hRep.holds.used
  have hRoom := hRep.holds.used_le
  unfold limitSet File.limitSet
  by_cases hRead : pd.readonly = true
  · rw [if_pos hRead, if_pos (Or.inl (hRep.readonly ▸ hRead))]
    exact hRep
  rw [if_neg hRead]
  by_cases hSame : pd.limit = limit
  · rw [if_pos hSame, if_pos (Or.inr (hRep.limit ▸ hSame))]
    exact hRep
  have hNeither : ¬ (f.readonly = true ∨ f.limit = limit) := by
    rw [← hRep.readonly, ← hRep.limit]
    exact fun hOr => hOr.elim hRead hSame
  rw [if_neg hSame, if_neg hNeither]
  dsimp only
  have hNew : Represents { pd with limit := limit } { f with limit := limit } :=
    ⟨⟨hRep.holds.bytes, hUsed, hRep.holds.block⟩, hRep.read, hRep.write, rfl, hRep.readonly,
      hRep.valid.read, hRep.valid.write, hRep.valid.last⟩
  have hTarget : target { pd with limit := limit } limit = limit := if_neg (by simp)
  have hRealloc := realloc_spec hNew (Bool.eq_false_iff.mpr hRead) (alloc 0) limit
  rw [hTarget] at hRealloc
  by_cases hLess : 0 < limit ∧ limit < pd.allocated
  · rw [if_pos (show 0 < limit ∧ limit < Data.allocated { pd with limit := limit } from hLess)]
    by_cases hCut : limit < f.contents.length
    · rw [if_pos ⟨hLess.1, hCut⟩]
      rw [if_pos hCut] at hRealloc
      exact hRealloc
    · rw [if_neg (by omega)]
      rw [if_neg hCut] at hRealloc
      exact hRealloc
  · rw [if_neg (show ¬ (0 < limit ∧ limit < Data.allocated { pd with limit := limit }) from hLess),
      if_neg (by omega)]
    exact hNew

---
-- Reading and Writing
---

theorem read_spec (len : Nat) :
    ∃ pd' err, read pd len = some (pd', f.next len, err) ∧ Represents pd' (f.advance len) := by
  have hBounds := hRep.bounds
  have hUsed := hRep.holds.used
  have hAvailable : CSize.sub pd.used pd.positionRead = f.contents.length - f.read := by
    unfold CSize.blockMax at hBounds
    rw [CSize.sub_of_le hBounds.1 (by unfold CSize.bound; omega), hUsed, hRep.read]
  have hRead := hRep.valid.read
  have hLength : (f.next len).length = min len (f.contents.length - f.read) := by
    unfold File.next
    rw [length_take, length_drop]
  unfold read
  rw [hAvailable]
  dsimp only
  by_cases hNone : f.contents.length - f.read < len ∧ f.contents.length - f.read = 0
  · have hNil : f.next len = [] := by
      apply length_eq_zero_iff.mp
      omega
    rw [if_pos hNone, hNil]
    refine ⟨pd, some .again, rfl, ?_⟩
    unfold File.advance
    rw [hNil]
    exact hRep
  · rw [if_neg hNone]
    generalize hCount : (if f.contents.length - f.read < len then
      f.contents.length - f.read else len) = count
    have hFits : f.read + count ≤ f.contents.length := by
      rw [← hCount]
      split <;> omega
    have hCopy : (f.contents.drop f.read).take count = f.next len := by
      unfold File.next
      rw [← hCount]
      split
      case isTrue hShort =>
        rw [take_of_length_le (by rw [length_drop]), take_of_length_le (by rw [length_drop]; omega)]
      case isFalse => rfl
    have hMoved : f.readSet (f.read + count) = f.advance len := by
      unfold File.readSet File.advance
      rw [if_pos hFits, ← hCopy, length_take, length_drop, Nat.min_eq_left (by omega)]
    have hAdd : CSize.add f.read count = f.read + count := by
      apply CSize.add_of_lt
      unfold CSize.blockMax at hBounds
      unfold CSize.bound
      omega
    have hSet := positionReadSet_spec hRep (f.read + count)
    rw [hMoved] at hSet
    rw [hRep.read, Block.read_prefix hRep.holds.bytes hFits, hCopy, hAdd]
    exact ⟨_, none, rfl, hSet⟩

/- What is written is in the memory besides the buffer. -/
def InMemory (pd : Data) (len : Nat) : Prop :=
  pd.allocated + len + 4096 ≤ CSize.blockMax

instance (pd : Data) (len : Nat) : Decidable (InMemory pd len) :=
  inferInstanceAs (Decidable (_ ≤ _))

/-
  No write makes the block smaller than what is used, and what
  is copied fits in it.
-/
theorem makeRoom_spec (hOpen : pd.readonly = false) (memory : Option (Nat → Byte))
    {len : Nat} (hMemory : InMemory pd len) (hLimit : pd.limit = 0 ∨
    pd.used ≤ pd.limit ∨ len ≤ pd.allocated - pd.positionWrite) :
    ∃ pd' todo, makeRoom memory pd len = (pd', todo) ∧
      Represents pd' f ∧ pd'.readonly = false ∧
      ∀ n, todo = some n → n ≤ len ∧ f.write + n ≤ pd'.allocated := by
  have hBounds := hRep.bounds
  unfold InMemory CSize.blockMax at hMemory
  have hAvailable : CSize.sub pd.allocated pd.positionWrite = pd.allocated - pd.positionWrite :=
    CSize.sub_of_le (by omega) (by unfold CSize.bound; omega)
  have hAdd : CSize.add pd.positionWrite len = pd.positionWrite + len :=
    CSize.add_of_lt (by unfold CSize.bound; omega)
  unfold makeRoom
  dsimp only
  rw [hAvailable, hAdd]
  by_cases hFits : len ≤ pd.allocated - pd.positionWrite
  · rw [if_pos hFits]
    refine ⟨pd, some len, rfl, hRep, hOpen, fun n hSome => ?_⟩
    obtain rfl := some.inj hSome
    rw [← hRep.write]
    omega
  rw [if_neg hFits]
  by_cases hFull : 0 < pd.limit ∧ pd.allocated = pd.limit
  · rw [if_pos hFull]
    exact ⟨pd, none, rfl, hRep, hOpen, fun n hSome => (nomatch hSome)⟩
  rw [if_neg hFull]
  have hAbove : pd.positionWrite + len < rounded (pd.positionWrite + len) :=
    lt_rounded (by unfold Roundable CSize.bound; omega)
  have hRealloc := realloc_same hRep hOpen memory
    (show pd.used ≤ rounded (pd.positionWrite + len) by omega) (by omega)
  rw [← reallocRounded] at hRealloc
  generalize reallocRounded memory pd (pd.positionWrite + len) = pd' at hRealloc
  have hBounds' := hRealloc.bounds
  have hSame : pd'.positionWrite = pd.positionWrite := by
    rw [hRealloc.write, hRep.write]
  have hAvailable' : CSize.sub pd'.allocated pd.positionWrite =
      pd'.allocated - pd.positionWrite := by
    rw [← hSame]
    unfold CSize.blockMax at hBounds'
    exact CSize.sub_of_le (by omega) (by unfold CSize.bound; omega)
  rw [hAvailable']
  refine ⟨pd', _, rfl, hRealloc, ?_, fun n hSome => ?_⟩
  · rw [hRealloc.readonly, ← hRep.readonly]
    exact hOpen
  · rw [ite_none_left_eq_some] at hSome
    have hCount := some.inj hSome.2
    rw [← hRep.write]
    split at hCount <;> omega

end

variable {slice : List Byte}

theorem write_spec (hRep : Represents pd f) (alloc : Alloc) (hMemory : InMemory pd slice.length)
    (hLimit : pd.readonly = true ∨ pd.limit = 0 ∨ pd.used ≤ pd.limit ∨
    slice.length ≤ pd.allocated - pd.positionWrite) :
    ∃ pd' n err, write alloc pd slice = some (pd', n, err) ∧
      Represents pd' (f.overwrite (slice.take n)) := by
  have hNothing : f.overwrite (slice.take 0) = f := by
    unfold File.overwrite
    rw [take_zero, length_nil, Nat.add_zero, nil_append, take_append_drop]
  unfold write
  by_cases hRead : pd.readonly = true
  · rw [if_pos hRead]
    exact ⟨pd, 0, some .perm, rfl, hNothing.symm ▸ hRep⟩
  rw [if_neg hRead]
  rcases makeRoom_spec hRep (Bool.eq_false_iff.mpr hRead) (alloc 0)
    hMemory (hLimit.resolve_left hRead) with ⟨pd', todo, hRoom, hRep', hOpen, hTodo⟩
  simp only [hRoom]
  cases todo with
  | none => exact ⟨pd', 0, some .nospc, rfl, hNothing.symm ▸ hRep'⟩
  | some n =>
    rcases hTodo n rfl with ⟨hLe, hFits⟩
    have hBlock := hRep'.holds.block
    unfold CSize.blockMax at hBlock
    have hTaken : (slice.take n).length = n := by
      rw [length_take]
      omega
    have hSource : Block.read slice 0 n = some (slice.take n) :=
      Block.read_prefix (prefix_refl slice) (by omega)
    rcases Block.write_prefix hRep'.holds.bytes hRep'.valid.write
      (show f.write + (slice.take n).length ≤ pd'.bytes.length by
        rw [hTaken]
        exact hFits) with ⟨bytes, hWrite, hLength, hPrefix⟩
    have hAdd : CSize.add f.write n = f.write + n := CSize.add_of_lt (by unfold CSize.bound; omega)
    have hOpen' : f.readonly = false := hRep'.readonly.symm.trans hOpen
    have hValid := hRep'.valid.overwrite hOpen' (slice.take n)
    have hUsed : (if pd'.used < f.write + n then f.write + n
        else pd'.used) = (f.overwrite (slice.take n)).contents.length := by
      have hStart := hRep'.valid.write
      rw [hRep'.holds.used]
      simp only [File.overwrite, length_append, length_take, length_drop, hTaken]
      split <;> omega
    simp only [hRep.write, hAdd, hSource, hWrite, bind_eq_bind, bind_some]
    refine ⟨_, n, none, rfl, ?_⟩
    unfold positionWriteSet
    dsimp only
    rw [if_neg (by simp [hOpen]), if_neg (by split <;> omega)]
    refine ⟨⟨hPrefix, hUsed, ?_⟩, hRep'.read, ?_, hRep'.limit, hRep'.readonly, hValid⟩
    · exact hLength.trans_le hRep'.holds.block
    · show f.write + n = f.write + (slice.take n).length
      rw [hTaken]

---
-- Sizes
---

theorem resizeEnd_eq (hUsed : pd.used = size) :
    resizeEnd pd size =
      { pd with
        positionRead := min pd.positionRead size
        positionWrite := min pd.positionWrite size } := by
  subst hUsed
  unfold resizeEnd positionReadSet positionWriteSet
  by_cases hRead : pd.used < pd.positionRead <;> by_cases hWrite : pd.used < pd.positionWrite <;>
    simp only [hRead, hWrite, Nat.lt_irrefl, if_true, if_false, false_and] <;>
    rw [Data.mk.injEq] <;> refine ⟨rfl, rfl, rfl, ?_, ?_, rfl⟩ <;> omega

/-
  To make the size smaller keeps a block that has as much as
  is left.
-/
theorem resize_less (memory : Option (Nat → Byte))
    (hOpen : pd.readonly = false) (hLess : size < pd.used)
    (hHolds : Holds { pd with used := size } contents) (hRound : Roundable size)
    (hLimit : pd.limit = 0 ∨ size ≤ pd.limit) :
    ∃ bytes, resize memory pd size =
        some ({ pd with
              bytes := bytes
              used := size
              positionRead := min pd.positionRead size
              positionWrite := min pd.positionWrite size }, none) ∧
      contents <+: bytes ∧ bytes.length ≤ CSize.blockMax := by
  have hAbove := lt_rounded hRound
  have hTarget : size ≤ target { pd with used := size } (rounded size) := by
    unfold target
    dsimp only
    split <;> omega
  -- The bytes that are left are at the start of the block.
  have hRealloc : ∃ bytes,
      reallocRounded memory { pd with used := size } size =
        { pd with used := size, bytes := bytes } ∧
      contents <+: bytes ∧ bytes.length ≤ CSize.blockMax := by
    unfold reallocRounded
    rcases realloc_cases memory (show Data.readonly { pd with used :=
      size } = false from hOpen) (rounded size) with ⟨-, hRealloc⟩ | ⟨-, bytes, hRealloc, hBytes⟩
    · exact ⟨pd.bytes, hRealloc, hHolds.bytes, hHolds.block⟩
    · rw [clip_of_le hTarget] at hRealloc
      refine ⟨bytes, hRealloc, ?_⟩
      rcases hBytes with ⟨rfl, -⟩ | ⟨hLength, hMax, hKept⟩
      · exact ⟨hHolds.bytes, hHolds.block⟩
      · exact ⟨hKept contents hHolds.bytes
          (hHolds.used.symm.trans_le hTarget), hLength.trans_le hMax⟩
  rcases hRealloc with ⟨bytes, hRealloc, hPrefix, hMax⟩
  have hSize : size ≤ bytes.length :=
    (show size = contents.length from hHolds.used).trans_le hPrefix.length_le
  refine ⟨bytes, ?_, hPrefix, hMax⟩
  unfold resize
  rw [if_neg (by omega), if_neg (by simp [hOpen])]
  dsimp only
  rw [hRealloc]
  have hNot : ¬ Data.allocated
      { pd with used := size, bytes := bytes } < size := Nat.not_lt.mpr hSize
  simp only [if_neg hNot, if_neg (Nat.not_lt.mpr (Nat.le_of_lt hLess))]
  rw [resizeEnd_eq rfl]

/-
  The reallocation for a larger size: the size is reached, or
  the block is too small for it.
-/
theorem realloc_more (memory : Option (Nat → Byte))
    (hRep : Represents pd f) (hOpen : pd.readonly = false)
    (hMore : pd.used < size) (hRound : Roundable size)
    (hLimit : pd.limit = 0 ∨ size ≤ pd.limit ∨
    (pd.used ≤ pd.limit ∧ (pd.allocated ≤ pd.limit ∨ memory ≠ none))) :
    ∃ used bytes,
      reallocRounded memory { pd with used := size } size =
        { pd with used := used, bytes := bytes } ∧
      f.contents <+: bytes ∧ bytes.length ≤ CSize.blockMax ∧
      (used = size ∨ bytes.length < size) := by
  have hBounds := hRep.bounds
  have hUsed := hRep.holds.used
  have hAbove := lt_rounded hRound
  have hCases := realloc_cases memory (show Data.readonly
    { pd with used := size } = false from hOpen) (rounded size)
  unfold reallocRounded
  generalize hTarget :
    target { pd with used := size } (rounded size) = room at hCases
  have hRoom : (room = pd.limit ∧ 0 < pd.limit ∧
        pd.limit < rounded size) ∨
      (room = rounded size ∧ (pd.limit = 0 ∨ rounded size ≤ pd.limit)) := by
    rw [← hTarget]
    unfold target
    dsimp only
    split <;> omega
  rcases hCases with ⟨-, hRealloc⟩ | ⟨-, bytes, hRealloc, hBytes⟩
  · exact ⟨size, pd.bytes, hRealloc, hRep.holds.bytes, hRep.holds.block, Or.inl rfl⟩
  have hKept : f.contents <+: bytes ∧ bytes.length ≤ CSize.blockMax := by
    rcases hBytes with ⟨rfl, -⟩ | ⟨hLength, hMax, hAll⟩
    · exact ⟨hRep.holds.bytes, hRep.holds.block⟩
    · exact ⟨hAll _ hRep.holds.bytes (by omega), hLength.trans_le hMax⟩
  by_cases hLe : size ≤ room
  · rw [clip_of_le hLe] at hRealloc
    exact ⟨size, bytes, hRealloc, hKept.1, hKept.2, Or.inl rfl⟩
  · -- The limit is below the size, and above what was used.
    have hClip : clip { pd with used := size } room =
        { pd with
          used := room
          positionRead := min pd.positionRead room
          positionWrite := min pd.positionWrite room } := clip_of_lt (Nat.lt_of_not_le hLe) hOpen
    rw [hClip] at hRealloc
    dsimp only at hRealloc
    rw [Nat.min_eq_left (by omega), Nat.min_eq_left (by omega)] at hRealloc
    refine ⟨room, bytes, hRealloc, hKept.1, hKept.2, Or.inr ?_⟩
    rcases hBytes with ⟨rfl, hWhy⟩ | ⟨hLength, -, -⟩
    · show pd.allocated < size
      rcases hWhy with rfl | hMax
      · simp only [ne_eq, not_true_eq_false, or_false] at hLimit
        omega
      · omega
    · omega

/- Zeros from the end of the contents on -/
theorem fill_spec {bytes : List Byte} (hPrefix : contents <+: bytes)
    (hRoom : size ≤ bytes.length) (hMax : bytes.length ≤ CSize.blockMax)
    (hLess : contents.length < size) :
    ∃ bytes', Block.write bytes contents.length
      (List.replicate (CSize.sub size contents.length) 0) =
        some bytes' ∧
      bytes'.length = bytes.length ∧
      contents ++ List.replicate (size - contents.length) 0 <+:
        bytes' := by
  have hSub : CSize.sub size contents.length = size - contents.length := by
    unfold CSize.blockMax at hMax
    exact CSize.sub_of_le (by omega) (by unfold CSize.bound; omega)
  have hFits : contents.length + (List.replicate
      (size - contents.length) (0 : Byte)).length ≤ bytes.length := by
    rw [length_replicate]
    omega
  rcases Block.write_prefix hPrefix (Nat.le_refl _) hFits with ⟨bytes', hWrite, hLength, hFilled⟩
  rw [take_length, drop_eq_nil_of_le (by omega), append_nil] at hFilled
  rw [hSub]
  exact ⟨bytes', hWrite, hLength, hFilled⟩

/-
  To make the size larger fills up with zeros, as far as there
  is room.
-/
theorem resize_more (memory : Option (Nat → Byte))
    (hRep : Represents pd f) (hOpen : pd.readonly = false)
    (hMore : pd.used < size) (hRound : Roundable size)
    (hLimit : pd.limit = 0 ∨ size ≤ pd.limit ∨
    (pd.used ≤ pd.limit ∧ (pd.allocated ≤ pd.limit ∨ memory ≠ none))) :
    ∃ pd' err, resize memory pd size = some (pd', err) ∧
      pd.used ≤ pd'.used ∧
      Represents pd' (f.truncate pd'.used) ∧ (err ≠ some .nospc → pd'.used = size) := by
  have hBounds := hRep.bounds
  have hUsed := hRep.holds.used
  rcases realloc_more memory hRep hOpen hMore hRound hLimit with
    ⟨used, bytes, hRealloc, hPrefix, hMax, hAt⟩
  have hRoom := hPrefix.length_le
  have hOpen' : f.readonly = false := hRep.readonly.symm.trans hOpen
  -- The last part, for the size that is reached
  have hDone : ∀ final bytes', final = min bytes.length size →
      bytes'.length = bytes.length →
      f.contents ++ List.replicate (final - f.contents.length) 0 <+:
        bytes' →
      Represents (resizeEnd { pd with used := final, bytes := bytes' } final)
        (f.truncate final) ∧ (resizeEnd { pd with used := final, bytes := bytes' }
          final).used = final := by
    intro final bytes' hFinal hLength hFilled
    have hValid : (f.truncate final).Valid :=
      hRep.valid.truncate fun hRead =>
        absurd (hOpen'.symm.trans hRead) (by simp)
    have hSize := File.length_truncate f final
    rw [hRep.valid.truncate_of_ge (by omega)] at hValid hSize ⊢
    rw [resizeEnd_eq rfl]
    refine ⟨⟨⟨hFilled, hSize.symm, hLength.trans_le hMax⟩, ?_, ?_,
      hRep.limit, hRep.readonly, hValid⟩, rfl⟩
    · dsimp only
      rw [Nat.min_eq_left (by omega), hRep.read]
    · dsimp only
      rw [Nat.min_eq_left (by omega), hRep.write]
  unfold resize
  rw [if_neg (by omega), if_neg (by simp [hOpen])]
  dsimp only
  rw [hRealloc, show Data.allocated
    { pd with used := used, bytes := bytes } = bytes.length from rfl]
  dsimp only
  by_cases hShort : bytes.length < size
  · simp only [if_pos hShort]
    by_cases hGrow : pd.used < bytes.length
    · rcases fill_spec hPrefix (Nat.le_refl _) hMax
        (by omega) with ⟨bytes', hWrite, hLength, hFilled⟩
      rcases hDone bytes.length bytes' (by omega) hLength hFilled with ⟨hRep', hUsed'⟩
      rw [← hUsed] at hWrite
      simp only [if_pos hGrow, hWrite, bind_eq_bind, bind_some]
      refine ⟨_, _, rfl, ?_, ?_, fun hFine => absurd rfl hFine⟩
      · rw [hUsed']
        omega
      · rw [hUsed']
        exact hRep'
    · simp only [if_neg hGrow]
      rcases hDone bytes.length bytes (by omega) rfl (by
          rw [show bytes.length - f.contents.length = 0 by omega, replicate_zero, append_nil]
          exact hPrefix) with ⟨hRep', hUsed'⟩
      refine ⟨_, _, rfl, ?_, ?_, fun hFine => absurd rfl hFine⟩
      · rw [hUsed']
        omega
      · rw [hUsed']
        exact hRep'
  · obtain rfl := hAt.resolve_right hShort
    simp only [if_neg hShort, if_pos hMore]
    rcases fill_spec hPrefix (Nat.not_lt.mp hShort) hMax
      (by omega) with ⟨bytes', hWrite, hLength, hFilled⟩
    rcases hDone used bytes' (by omega) hLength hFilled with ⟨hRep', hUsed'⟩
    rw [← hUsed] at hWrite
    simp only [hWrite, bind_eq_bind, bind_some]
    refine ⟨_, _, rfl, ?_, ?_, fun _ => hUsed'⟩
    · rw [hUsed']
      omega
    · rw [hUsed']
      exact hRep'

---
-- Other Blocks
---

/- A size that can be reached, or is reached in part -/
def Resizable (memory : Option (Nat → Byte)) (pd : Data) (size : Nat) : Prop :=
  pd.readonly = true ∨
    (Roundable size ∧
      (pd.limit = 0 ∨ size ≤ pd.limit ∨
        (pd.used ≤ pd.limit ∧
          (pd.allocated ≤ pd.limit ∨ memory ≠ none))))

/- The file after a resize that may have run out of space -/
def File.resized (f : File) (size used : Nat) : Option Error → File
  | some .nospc => f.truncate (max f.contents.length used)
  | _ => f.resize size

theorem resize_spec (hRep : Represents pd f)
    (memory : Option (Nat → Byte)) (hSize : Resizable memory pd size) :
    ∃ pd' err, resize memory pd size = some (pd', err) ∧
      Represents pd' (f.resized size pd'.used err) := by
  have hUsed := hRep.holds.used
  by_cases hSame : pd.used = size
  · have hResize : f.resize size = f := by
      unfold File.resize
      rw [← hSame, hUsed, if_neg (fun hBoth => by omega), hRep.valid.truncate_self]
    refine ⟨pd, none, if_pos hSame, ?_⟩
    show Represents pd (f.resize size)
    rw [hResize]
    exact hRep
  by_cases hRead : pd.readonly = true
  · have hRead' : f.readonly = true := hRep.readonly.symm.trans hRead
    by_cases hMore : pd.used < size
    · have hResize : f.resize size = f := if_pos ⟨hRead', by omega⟩
      refine ⟨pd, some .perm, ?_, ?_⟩
      · unfold resize
        rw [if_neg hSame, if_pos hRead, if_pos hMore]
      · show Represents pd (f.resize size)
        rw [hResize]
        exact hRep
    · have hResize : f.resize size = f.truncate size := if_neg fun hBoth => by omega
      have hValid : (f.truncate size).Valid := hRep.valid.truncate fun _ => by omega
      have hTake := hRep.holds.take (show size ≤ pd.used by omega)
      refine ⟨resizeEnd { pd with used := size } size, none, ?_, ?_⟩
      · unfold resize
        rw [if_neg hSame, if_pos hRead, if_neg hMore]
      · show Represents _ (f.resize size)
        rw [hResize, resizeEnd_eq rfl]
        rw [File.truncate_of_le f (by omega)] at hValid ⊢
        refine ⟨⟨hTake.bytes, hTake.used, hTake.block⟩, ?_, ?_, hRep.limit, hRep.readonly, hValid⟩
        · rw [← hRep.read]
        · rw [← hRep.write]
  have hOpen : pd.readonly = false := Bool.eq_false_iff.mpr hRead
  rcases hSize.resolve_left hRead with ⟨hRound, hLimit⟩
  have hNot : ¬ (f.readonly = true ∧ f.contents.length < size) := by
    rw [← hRep.readonly]
    exact fun hBoth => hRead hBoth.1
  have hResize : f.resize size = f.truncate size := if_neg hNot
  by_cases hMore : pd.used < size
  · rcases resize_more memory hRep hOpen hMore hRound hLimit with
      ⟨pd', err, hStep, hGrown, hRep', hFine⟩
    refine ⟨pd', err, hStep, ?_⟩
    have hOther : err ≠ some .nospc → Represents pd' (f.resize size) := by
      intro hErr
      rw [hResize, ← hFine hErr]
      exact hRep'
    cases err with
    | none => exact hOther (by simp)
    | some e =>
      cases e with
      | nospc =>
        show Represents pd' (f.truncate (max f.contents.length pd'.used))
        rw [Nat.max_eq_right (by omega)]
        exact hRep'
      | inval => exact hOther (by simp)
      | perm => exact hOther (by simp)
      | again => exact hOther (by simp)
  · have hLess : size < pd.used := by omega
    rcases resize_less memory hOpen hLess (hRep.holds.take (Nat.le_of_lt hLess)) hRound
      (by omega) with ⟨bytes, hStep, hPrefix, hMax⟩
    have hValid : (f.truncate size).Valid := hRep.valid.truncate fun _ => by omega
    refine ⟨_, none, hStep, ?_⟩
    show Represents _ (f.resize size)
    rw [hResize]
    rw [File.truncate_of_le f (by omega)] at hValid ⊢
    have hLength : (f.contents.take size).length = size := by
      rw [length_take]
      omega
    refine ⟨⟨hPrefix, hLength.symm, hMax⟩, ?_, ?_, hRep.limit, hRep.readonly, hValid⟩
    · rw [← hRep.read]
    · rw [← hRep.write]

/- The bytes are given away, and the buffer is empty. -/
theorem binbufSteal_spec (hRep : Represents pd f) (alloc : Alloc) :
    ∃ pd' bytes, binbufSteal alloc pd = some (pd', bytes) ∧
      ((bytes = none ∧ Represents pd' f) ∨
      (bytes = some f.contents ∧ Represents pd' (f.truncate 0))) := by
  have hUsed := hRep.holds.used
  unfold binbufSteal
  by_cases hRead : pd.readonly = true
  · rw [if_pos hRead]
    exact ⟨pd, none, rfl, Or.inl ⟨rfl, hRep⟩⟩
  rw [if_neg hRead]
  cases alloc 0 with
  | none => exact ⟨pd, none, rfl, Or.inl ⟨rfl, hRep⟩⟩
  | some junk =>
    have hCopy : Block.read pd.bytes 0 pd.used = some f.contents := by
      rw [Block.read_prefix hRep.holds.bytes (by omega), drop_zero, hUsed, take_length]
    have hOpen' : f.readonly = false := by
      rw [← hRep.readonly]
      exact Bool.eq_false_iff.mpr hRead
    have hValid : (f.truncate 0).Valid :=
      hRep.valid.truncate fun hYes =>
        absurd (hOpen'.symm.trans hYes) (by simp)
    simp only [hCopy, bind_eq_bind, bind_some]
    rw [File.truncate_of_le f (Nat.zero_le _)] at hValid ⊢
    have hRead0 : f.read ≤ pd.used := by
      rw [hUsed]
      exact hRep.valid.read
    have hWrite0 : f.write ≤ pd.used := by
      rw [hUsed]
      exact hRep.valid.write
    by_cases hZero : pd.used = 0
    · have hResize : resize (alloc 1) { pd with bytes := [] } 0 =
          some ({ pd with bytes := [] }, none) := if_pos hZero
      simp only [hResize, bind_some]
      refine ⟨_, _, rfl, Or.inr ⟨rfl, ⟨List.nil_prefix, hZero,
        Nat.zero_le _⟩, ?_, ?_, hRep.limit, hRep.readonly, hValid⟩⟩
      · dsimp only
        rw [hRep.read]
        omega
      · dsimp only
        rw [hRep.write]
        omega
    · have hEmpty : Holds { pd with bytes := [], used := 0 } [] :=
        ⟨List.nil_prefix, rfl, Nat.zero_le _⟩
      rcases resize_less (alloc 1)
        (show Data.readonly { pd with bytes := [] } = false from
        Bool.eq_false_iff.mpr hRead) (show 0 < pd.used by omega) hEmpty
        (show Roundable 0 by decide) (Or.inr (Nat.zero_le _)) with
        ⟨bytes, hStep, -, hMax⟩
      simp only [hStep, bind_some]
      refine ⟨_, _, rfl, Or.inr ⟨rfl, ⟨List.nil_prefix, rfl,
        hMax⟩, ?_, ?_, hRep.limit, hRep.readonly, hValid⟩⟩
      · dsimp only
        rw [hRep.read]
      · dsimp only
        rw [hRep.write]

theorem adoptReadonly_spec (hRep : Represents pd f)
    (hMax : slice.length ≤ CSize.blockMax) :
    Represents (adoptReadonly pd slice) (f.adoptReadonly slice) := by
  unfold adoptReadonly positionReadSet positionWriteSet
  by_cases hRead : slice.length < pd.positionRead <;>
    simp only [hRead, Nat.lt_irrefl, if_true, if_false, false_and]
  · refine ⟨⟨prefix_refl _, rfl, hMax⟩, ?_, rfl, hRep.limit,
      rfl, Nat.min_le_right _ _, Nat.le_refl _, fun _ => rfl⟩
    show slice.length = min f.read slice.length
    rw [← hRep.read]
    omega
  · refine ⟨⟨prefix_refl _, rfl, hMax⟩, ?_, rfl, hRep.limit,
      rfl, Nat.min_le_right _ _, Nat.le_refl _, fun _ => rfl⟩
    show pd.positionRead = min f.read slice.length
    rw [← hRep.read]
    omega

theorem adoptReadwrite_eq (pd : Data) (slice : List Byte) :
    adoptReadwrite pd slice =
      { bytes := slice
        used := slice.length
        limit := pd.limit
        positionRead := min pd.positionRead slice.length
        positionWrite := min pd.positionWrite slice.length
        readonly := false } := by
  unfold adoptReadwrite positionReadSet positionWriteSet
  by_cases hRead : slice.length < pd.positionRead <;>
    by_cases hWrite : slice.length < pd.positionWrite <;>
    simp only [hRead, hWrite, Nat.lt_irrefl, if_true, if_false, false_and] <;>
    rw [Data.mk.injEq] <;> refine ⟨rfl, rfl, rfl, ?_, ?_, rfl⟩ <;> omega

theorem adoptReadwrite_spec (hRep : Represents pd f)
    (hMax : slice.length ≤ CSize.blockMax) :
    Represents (adoptReadwrite pd slice) (f.adoptReadwrite slice) := by
  rw [adoptReadwrite_eq]
  refine ⟨⟨prefix_refl _, rfl, hMax⟩, ?_, ?_, hRep.limit, rfl,
    Nat.min_le_right _ _, Nat.min_le_right _ _, fun hYes => (nomatch hYes)⟩
  · show min pd.positionRead slice.length = _
    rw [hRep.read]
    rfl
  · show min pd.positionWrite slice.length = _
    rw [hRep.write]
    rfl

end Efl.Io.Buffer
