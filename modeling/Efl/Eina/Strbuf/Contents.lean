import Efl.Eina.Strbuf.Model

/-
  What the calls do to the content of a buffer.

  Main declarations:
    * `Holds`, a buffer over its own memory
    * `Borrowed`, a buffer over memory that it was given
    * `resize_spec`, `grow_spec`
    * `appendLength_spec`, `insertAt_spec`
-/

---
-- States
---

namespace Efl.Strbuf

open Bytes

/- Contents are shorter than this, so that no size wraps. -/
def limit : Nat :=
  sizeMax - maxStep - 1

/- The content is in memory of the buffer. -/
structure Holds (l : List Byte) (s : Buffer) : Prop where
  place : s.place = .owned
  len : s.len = l.length
  content : l <+: s.own
  room : l.length + 1 ≤ s.size
  size_le : s.size ≤ s.own.length
  step_pos : 0 < s.step
  step_le : s.step ≤ maxStep

/- The content is in the memory of the caller. -/
structure Borrowed (l : List Byte) (s : Buffer) : Prop where
  place : s.place = .given
  ro : s.ro = true
  len : s.len = l.length
  content : l <+: s.given
  size : s.size = l.length + 1
  step_pos : 0 < s.step
  step_le : s.step ≤ maxStep

/- A buffer that is not shared, with a NUL at the end. -/
structure Whole (l : List Byte) (s : Buffer) : Prop where
  ro : s.ro = false
  ended : l ++ [0] <+: s.own

/- The memory of the caller is as before. -/
structure Kept (s s' : Buffer) : Prop where
  given : s'.given = s.given
  written : s'.written = s.written

/- A call ends with a content. -/
structure Gives (s : Buffer) (l l' : List Byte) (s' : Buffer) : Prop where
  holds : Holds l' s'
  kept : Kept s s'
  whole : Whole l s → Whole l' s'

theorem Kept.refl (s : Buffer) : Kept s s := ⟨rfl, rfl⟩

theorem Kept.trans {s₁ s₂ s₃ : Buffer} (hFirst : Kept s₁ s₂) (hSecond : Kept s₂ s₃) : Kept s₁ s₃ :=
  ⟨hSecond.given.trans hFirst.given, hSecond.written.trans hFirst.written⟩

section

variable {l : List Byte} {s : Buffer}

theorem Holds.bytes_eq (hHolds : Holds l s) : s.bytes = s.own := by
  unfold Buffer.bytes
  rw [hHolds.place]

/- The memory behind the content. -/
theorem Holds.rest (hHolds : Holds l s) :
    ∃ rest, s.own = l ++ rest ∧ s.size ≤ l.length + rest.length := by
  rcases hHolds.content with ⟨rest, hOwn⟩
  refine ⟨rest, hOwn.symm, ?_⟩
  rw [← List.length_append, hOwn]
  exact hHolds.size_le

theorem setBytes_owned (m : List Byte) (hPlace : s.place = .owned) :
    s.setBytes m = { s with own := m } := by
  unfold Buffer.setBytes
  rw [hPlace]

theorem write_owned {pos : Nat} {bs m : List Byte} (hPlace : s.place = .owned)
    (hWrite : Block.write s.own pos bs = some m) : s.write pos bs = some { s with own := m } := by
  unfold Buffer.write Buffer.bytes Buffer.setBytes
  rw [hPlace]
  simp [hWrite]

theorem move_owned {dst src n : Nat} {m : List Byte} (hPlace : s.place = .owned)
    (hMove : Block.move s.own dst src n = some m) :
    s.move dst src n = some { s with own := m } := by
  unfold Buffer.move Buffer.bytes Buffer.setBytes
  rw [hPlace]
  simp [hMove]

end

---
-- Sizes
---

open List Option

variable {s : Buffer}

theorem newStepOf_bounds (size : Nat) (hPos : 0 < s.step)
    (hLe : s.step ≤ maxStep) : 0 < newStepOf s size ∧ newStepOf s size ≤ maxStep := by
  unfold newStepOf
  dsimp only
  generalize (if s.size < size then size - s.size
    else s.size - size) = delta
  split
  case isTrue => exact ⟨hPos, hLe⟩
  case isFalse =>
    refine ⟨?_, Nat.min_le_right _ _⟩
    apply Nat.lt_min.mpr
    constructor
    · exact Nat.mul_pos (Nat.succ_pos _) (by decide)
    · decide

/- The new size has room, and does not wrap. -/
theorem newSizeOf_bounds {size newStep : Nat} (hPos : 0 < newStep)
    (hLe : newStep ≤ maxStep) (hSize : size < sizeMax - maxStep) :
    size < newSizeOf size newStep := by
  have hUpper : (size / newStep + 1) * newStep ≤ size + newStep := by
    rw [Nat.add_mul, Nat.one_mul]
    have hDiv := Nat.div_mul_le_self size newStep
    omega
  have hLower : size < (size / newStep + 1) * newStep := by
    rw [Nat.mul_comm]
    exact Nat.lt_mul_div_succ size hPos
  unfold newSizeOf
  rw [Nat.mod_eq_of_lt (by omega)]
  exact hLower

variable {l : List Byte}

/- The content at the start of new memory. -/
theorem write_fresh (junk : Nat → Byte) (newSize : Nat)
    (hFits : l.length ≤ newSize) :
    ∃ own, Block.write (Block.fresh junk newSize) 0 l =
        some own ∧
      own.length = newSize ∧ l <+: own := by
  have hFits' : l.length ≤ (Block.fresh junk newSize).length := by
    rw [Block.length_fresh]
    exact hFits
  have hWrite := Block.write_zero hFits'
  refine ⟨_, hWrite, ?_, prefix_append _ _⟩
  rw [Block.length_write hWrite, Block.length_fresh]

/- The content can be read. -/
theorem read_content (hState : Holds l s ∨ Borrowed l s) : Block.read s.bytes 0 s.len = some l := by
  have hBoth : s.len = l.length ∧ l <+: s.bytes := by
    rcases hState with hHolds | hBorrowed
    · rw [hHolds.bytes_eq]
      exact ⟨hHolds.len, hHolds.content⟩
    · unfold Buffer.bytes
      rw [hBorrowed.place]
      exact ⟨hBorrowed.len, hBorrowed.content⟩
  rcases hBoth with ⟨hLen, rest, hBytes⟩
  rw [hLen, ← hBytes]
  exact Block.read_append [] l rest

/- The new memory starts with the content. -/
theorem newMemory_spec (junk : Nat → Byte) (newSize : Nat) (hState : Holds l s ∨ Borrowed l s)
    (hFits : l.length + 1 ≤ newSize) :
    ∃ own, newMemory junk s newSize = some own ∧
      own.length = newSize ∧ l <+: own ∧ (Whole l s → l ++ [0] <+: own) := by
  have hShorter : l.length ≤ newSize := by omega
  rcases write_fresh junk newSize hShorter with ⟨own, hWrite, hLength, hContent⟩
  unfold newMemory
  cases hRo : s.ro with
  | true =>
    refine ⟨own, ?_, hLength, hContent, fun hWhole => ?_⟩
    · rw [if_pos rfl, read_content hState]
      exact hWrite
    · exact nomatch hRo.symm.trans hWhole.ro
  | false =>
    rcases hState with hHolds | hBorrowed
    · have hKeep : ∀ l', l' <+: s.own → l'.length ≤ newSize →
          l' <+: Block.realloc junk s.own newSize := by
        rintro l' ⟨rest, hOwn⟩ hFits'
        rw [← hOwn]
        rcases Block.realloc_append junk l' rest hFits' with ⟨rest', hRealloc⟩
        rw [hRealloc]
        exact prefix_append _ _
      refine ⟨Block.realloc junk s.own newSize, ?_, Block.length_realloc _ _ _,
        hKeep l hHolds.content (by omega), fun hWhole => ?_⟩
      · rw [hHolds.place]
        rfl
      · apply hKeep _ hWhole.ended
        rw [length_append, length_singleton]
        exact hFits
    · exact nomatch hRo.symm.trans hBorrowed.ro

/- A resize keeps the content, and has room. -/
theorem resize_spec {n : Nat} (junk : Nat → Byte) (hState : Holds l s ∨ Borrowed l s ∧ l.length < n)
    (hLe : l.length ≤ n) (hLimit : n < limit) :
    ∃ s', resize (some junk) s n = some (s', true) ∧
      Gives s l l s' ∧ n + 1 ≤ s'.size ∧ (s.ro = false → s'.ro = false) := by
  unfold limit maxStep at hLimit
  have hWrap : (n + 1) % sizeMax = n + 1 := Nat.mod_eq_of_lt (by omega)
  have hEither : Holds l s ∨ Borrowed l s := hState.imp_right And.left
  have hStep : 0 < s.step ∧ s.step ≤ maxStep := by
    rcases hEither with hHolds | hBorrowed
    · exact ⟨hHolds.step_pos, hHolds.step_le⟩
    · exact ⟨hBorrowed.step_pos, hBorrowed.step_le⟩
  have hLen : s.len = l.length := by
    rcases hEither with hHolds | hBorrowed
    · exact hHolds.len
    · exact hBorrowed.len
  have hBounds := newStepOf_bounds (n + 1) hStep.1 hStep.2
  have hSize : n + 1 < newSizeOf (n + 1) (newStepOf s (n + 1)) := by
    apply newSizeOf_bounds hBounds.1 hBounds.2
    unfold maxStep
    omega
  -- Nothing is done to a buffer that has the size.
  have hSame : n + 1 ≤ s.size →
      ∃ s', some (s, true) = some (s', true) ∧
        Gives s l l s' ∧ n + 1 ≤ s'.size ∧ (s.ro = false → s'.ro = false) := by
    intro hRoom
    rcases hState with hHolds | ⟨hBorrowed, hLt⟩
    · exact ⟨s, rfl, ⟨hHolds, .refl s, id⟩, hRoom, id⟩
    · rw [hBorrowed.size] at hRoom
      omega
  unfold resize
  rw [hWrap]
  dsimp only
  split
  case isTrue hIs => exact hSame hIs.le
  case isFalse =>
    split
    case isTrue hIs => exact hSame (by omega)
    case isFalse =>
      generalize newSizeOf (n + 1) (newStepOf s (n + 1)) = newSize at hSize
      generalize newStepOf s (n + 1) = newStep at hBounds
      rcases newMemory_spec junk newSize hEither (by omega) with
        ⟨own, hMemory, hLength, hContent, hEnded⟩
      rw [hMemory]
      refine ⟨_, rfl, ⟨⟨rfl, hLen, hContent, ?_, hLength.ge, hBounds.1,
        hBounds.2⟩, ⟨rfl, rfl⟩, ?_⟩, hSize.le, fun _ => rfl⟩
      · exact show l.length + 1 ≤ newSize by omega
      · intro hWhole
        exact ⟨rfl, hEnded hWhole⟩

/- The buffer has room for so many bytes. -/
theorem grow_spec {n : Nat} (junk : Nat → Byte) (hState : Holds l s ∨ Borrowed l s ∧ l.length < n)
    (hLimit : n < limit) :
    ∃ s', grow (some junk) s n = some (s', true) ∧
      Gives s l l s' ∧ n + 1 ≤ s'.size ∧ (s.ro = false → s'.ro = false) := by
  have hWrap : (n + 1) % sizeMax = n + 1 := by
    unfold limit maxStep sizeMax at *
    exact Nat.mod_eq_of_lt (by omega)
  unfold grow
  rw [hWrap]
  split
  case isTrue hRoom =>
    rcases hState with hHolds | ⟨hBorrowed, hLt⟩
    · exact ⟨s, rfl, ⟨hHolds, .refl s, id⟩, hRoom.le, id⟩
    · rw [hBorrowed.size] at hRoom
      omega
  case isFalse hRoom =>
    refine resize_spec junk hState ?_ hLimit
    rcases hState with hHolds | ⟨-, hLt⟩
    · have := hHolds.room
      omega
    · exact hLt.le

---
-- Append and Insert
---

/- A call leaves a content with a NUL behind it. -/
structure Ends (s : Buffer) (l : List Byte) (s' : Buffer) : Prop where
  holds : Holds l s'
  kept : Kept s s'
  ended : l ++ [0] <+: s'.own
  ro : s.ro = false → s'.ro = false

theorem Ends.gives {s' : Buffer} {l' : List Byte} (hEnds : Ends s l' s') : Gives s l l' s' :=
  ⟨hEnds.holds, hEnds.kept, fun hWhole => ⟨hEnds.ro hWhole.ro, hEnds.ended⟩⟩

section

variable {l : List Byte} {s : Buffer}

/- Room is made for `n` more bytes. -/
theorem grow_more (junk : Nat → Byte) {n : Nat} (hState : Holds l s ∨ Borrowed l s ∧ 0 < n)
    (hLimit : l.length + n < limit) :
    ∃ s' rest, grow (some junk) s ((s.len + n) % sizeMax) =
        some (s', true) ∧
      Holds l s' ∧ Kept s s' ∧
      (s.ro = false → s'.ro = false) ∧
      s'.own = l ++ rest ∧ n + 1 ≤ rest.length ∧ l.length + n + 1 ≤ s'.size := by
  have hLen : s.len = l.length := by
    rcases hState with hHolds | ⟨hBorrowed, -⟩
    · exact hHolds.len
    · exact hBorrowed.len
  have hWrap : (s.len + n) % sizeMax = l.length + n := by
    rw [hLen]
    unfold limit maxStep sizeMax at *
    exact Nat.mod_eq_of_lt (by omega)
  rw [hWrap]
  have hState' : Holds l s ∨ Borrowed l s ∧ l.length < l.length + n := by
    rcases hState with hHolds | ⟨hBorrowed, hPos⟩
    · exact Or.inl hHolds
    · exact Or.inr ⟨hBorrowed, by omega⟩
  rcases grow_spec junk hState' hLimit with ⟨s', hGrow, hGives, hRoom, hRo⟩
  rcases hGives.holds.rest with ⟨rest, hOwn, hRest⟩
  exact ⟨s', rest, hGrow, hGives.holds, hGives.kept, hRo, hOwn, by omega, hRoom⟩

/- Another content in the memory of the buffer. -/
theorem Holds.of_own {l' m : List Byte} (hHolds : Holds l s)
    (hLength : m.length = s.own.length) (hContent : l' <+: m)
    (hRoom : l'.length + 1 ≤ s.size) : Holds l' { s with own := m, len := l'.length } :=
  ⟨hHolds.place, rfl, hContent, hRoom, hLength ▸ hHolds.size_le, hHolds.step_pos, hHolds.step_le⟩

/- The NUL is written behind the content. -/
theorem terminate_spec {s₁ : Buffer} (hHolds : Holds l s₁)
    (hKept : Kept s s₁) (hRo : s.ro = false → s₁.ro = false) :
    ∃ s₂, s₁.write s₁.len [0] = some s₂ ∧ Ends s l s₂ := by
  rcases hHolds.rest with ⟨rest, hOwn, hRest⟩
  have hRoom := hHolds.room
  have hFits : [(0 : Byte)].length ≤ rest.length := show 1 ≤ rest.length by omega
  have hWrite := Block.write_end l hFits
  rw [← hOwn, ← hHolds.len] at hWrite
  have hLength := Block.length_write hWrite
  refine ⟨_, write_owned hHolds.place hWrite, ⟨hHolds.place, hHolds.len,
    prefix_append _ _, hRoom, hLength ▸ hHolds.size_le, hHolds.step_pos,
    hHolds.step_le⟩, ⟨hKept.given, hKept.written⟩, ?_, hRo⟩
  exact ⟨rest.drop [(0 : Byte)].length, by simp⟩

theorem append_spec (junk : Nat → Byte) (str : CString)
    (hState : Holds l s ∨ Borrowed l s ∧ 0 < str.chars.length)
    (hLimit : l.length + str.chars.length < limit) :
    ∃ s', append (some junk) s str = some (s', true) ∧ Ends s (l ++ str.chars) s' := by
  rcases grow_more junk hState hLimit with ⟨s₁, rest, hGrow, hHolds, hKept, hRo, hOwn, hRest, hRoom⟩
  have hFits : (str.chars ++ [0]).length ≤ rest.length := by
    rw [length_append, length_singleton]
    exact hRest
  have hWrite := Block.write_end l hFits
  rw [← hOwn, ← hHolds.len] at hWrite
  have hLength := Block.length_write hWrite
  have hEnded : (l ++ str.chars) ++ [0] <+:
      l ++ (str.chars ++ [0] ++ rest.drop (str.chars ++ [0]).length) :=
    ⟨rest.drop (str.chars ++ [0]).length, by
      simp only [append_assoc]⟩
  have hLen : s₁.len + str.chars.length = (l ++ str.chars).length := by
    rw [hHolds.len, length_append]
  unfold append
  dsimp only
  rw [hGrow, bind_eq_bind, bind_some]
  dsimp only
  rw [if_pos rfl, write_owned hHolds.place hWrite]
  dsimp only [bind_eq_bind, bind_some]
  rw [hLen]
  refine ⟨_, rfl, hHolds.of_own hLength ((prefix_append _ _).trans hEnded) ?_,
    ⟨hKept.given, hKept.written⟩, hEnded, hRo⟩
  rw [length_append]
  exact hRoom

theorem appendLength_spec (junk : Nat → Byte) (str : List Byte)
    (hState : Holds l s ∨ Borrowed l s ∧ 0 < str.length)
    (hLimit : l.length + str.length < limit) :
    ∃ s', appendLength (some junk) s str = some (s', true) ∧ Ends s (l ++ str) s' := by
  rcases grow_more junk hState hLimit with ⟨s₁, rest, hGrow, hHolds, hKept, hRo, hOwn, hRest, hRoom⟩
  have hWrite := Block.write_end l (show str.length ≤ rest.length by omega)
  rw [← hOwn, ← hHolds.len] at hWrite
  have hLen : s₁.len + str.length = (l ++ str).length := by
    rw [hHolds.len, length_append]
  have hContent : l ++ str <+: l ++ (str ++ rest.drop str.length) := by
    rw [← append_assoc]
    exact prefix_append _ _
  have hHolds' := hHolds.of_own (Block.length_write hWrite)
    hContent (by rw [length_append]; exact hRoom)
  rcases terminate_spec hHolds' ⟨hKept.given, hKept.written⟩ hRo with ⟨s₂, hEnd, hEnds⟩
  unfold appendLength
  dsimp only
  rw [hGrow, bind_eq_bind, bind_some]
  dsimp only
  rw [if_pos rfl, write_owned hHolds.place hWrite]
  dsimp only [bind_eq_bind, bind_some]
  rw [hLen, hEnd]
  exact ⟨s₂, rfl, hEnds⟩

/- An insertion before the end of the content. -/
theorem insertAt_spec (junk : Nat → Byte) (str : List Byte) {pos : Nat}
    (hState : Holds l s ∨ Borrowed l s ∧ 0 < str.length)
    (hPos : pos ≤ l.length) (hLimit : l.length + str.length < limit) :
    ∃ s', insertAt (some junk) s str pos = some (s', true) ∧
      Ends s (l.take pos ++ (str ++ l.drop pos)) s' := by
  rcases grow_more junk hState hLimit with ⟨s₁, rest, hGrow, hHolds, hKept, hRo, hOwn, hRest, hRoom⟩
  have hTake : (l.take pos).length = pos := by
    rw [length_take]
    omega
  have hDrop : (l.drop pos).length = s₁.len - pos := by
    rw [length_drop, hHolds.len]
  have hOwn' : s₁.own = l.take pos ++ (l.drop pos ++ rest) := by
    rw [hOwn, ← append_assoc, take_append_drop]
  rcases Block.move_gap (l.take pos) (l.drop pos)
    (show str.length ≤ rest.length by omega) with ⟨gap, rest', hGap, hMove⟩
  rw [← hOwn', hTake, hDrop, Nat.add_comm pos] at hMove
  have hMoved := Block.length_move hMove
  have hWrite := Block.write_append (l.take pos) (l.drop pos ++ rest') hGap.symm
  rw [hTake] at hWrite
  have hContent : l.take pos ++ (str ++ l.drop pos) <+:
      l.take pos ++ (str ++ (l.drop pos ++ rest')) := ⟨rest', by simp only [append_assoc]⟩
  have hNew : s₁.len + str.length = (l.take pos ++ (str ++ l.drop pos)).length := by
    rw [length_append, length_append, hTake, hDrop, hHolds.len]
    omega
  have hHolds' := hHolds.of_own ((Block.length_write hWrite).trans hMoved) hContent
    (by rw [← hNew, hHolds.len]; exact hRoom)
  rcases terminate_spec hHolds' ⟨hKept.given, hKept.written⟩ hRo with ⟨s₂, hEnd, hEnds⟩
  unfold insertAt
  dsimp only
  rw [hGrow, bind_eq_bind, bind_some]
  dsimp only
  rw [if_pos rfl, move_owned hHolds.place hMove]
  dsimp only [bind_eq_bind, bind_some]
  have hPlace : ({ s₁ with
      own := l.take pos ++ (gap ++ (l.drop pos ++
        rest')) } : Buffer).place = .owned := hHolds.place
  rw [write_owned hPlace hWrite]
  dsimp only [bind_some]
  rw [hNew, hEnd]
  exact ⟨s₂, rfl, hEnds⟩

end

end Efl.Strbuf
