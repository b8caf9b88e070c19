import Efl.Elementary.Code.Model

/-
  The text of one line.

  Main declarations:
    * `Line.bytes`
    * `LineOk`, `Rewritten`
    * `textSet_spec`, `textInsert_spec`, `textRemove_spec`
    * `newLine_spec`
-/

---
-- Copies
---

namespace Efl.Elementary.Code

open Bytes List Option

/- Without a NUL, `strncpy` copies what it is told to. -/
theorem strncpy_of_noNul {m : List Byte} {n : Nat}
    (hNoNul : 0 ∉ m.take n) (hFits : n ≤ m.length) : strncpy m n = some (m.take n) := by
  unfold strncpy
  rw [CStr.text_of_noNul hNoNul]
  dsimp only
  rw [if_pos (Or.inl hFits), length_take, Nat.min_eq_left hFits,
    Nat.sub_self, replicate_zero, append_nil]

theorem strndup_of_noNul {m : List Byte} (hNoNul : 0 ∉ m) :
    strndup m m.length = some (m ++ [0]) := by
  unfold strndup
  rw [take_length, CStr.text_of_noNul hNoNul]
  exact if_pos (Or.inl (Nat.le_refl _))

theorem sub_of_le {a b : Nat} (hLess : a < 2 ^ 32) (hLe : b ≤ a) : sub a b = a - b := by
  unfold sub
  omega

theorem add_of_lt {a b : Nat} (hLess : a + b < 2 ^ 32) : add a b = a + b := Nat.mod_eq_of_lt hLess

---
-- Texts
---

/- The bytes of a line -/
def Line.bytes (line : Line) : List Byte :=
  (line.text.getD []).take line.length

/- A line has all of its text, and no NUL in it. -/
structure LineOk (line : Line) : Prop where
  text : line.text ≠ none
  length : line.bytes.length = line.length
  noNul : 0 ∉ line.bytes
  bound : line.length < 2 ^ 32

/- The parsers leave lines as they are. -/
def Parent.Quiet (parent : Parent) : Prop :=
  ∀ line, parent.parseLine line = line

/- From a line to one with another text. -/
structure Rewritten (line line' : Line) (bytes : List Byte) : Prop where
  addr : line'.addr = line.addr
  number : line'.number = line.number
  bytes : line'.bytes = bytes
  ok : LineOk line'

theorem Line.readable_eq (line : Line) (pos : Nat) : line.readable pos = line.bytes.drop pos := rfl

/- A buffer that is as long as the line -/
theorem rewritten_of_buffer (line : Line) {m : List Byte}
    (hNoNul : 0 ∉ m) (hBound : m.length < 2 ^ 32) :
    Rewritten line { line with modified := some m, length := m.length } m := by
  have hBytes : ({ line with
      modified := some m
      length := m.length } : Line).bytes = m := take_length
  refine ⟨rfl, rfl, hBytes, ?_, ?_, ?_, hBound⟩
  · exact some_ne_none m
  · rw [hBytes]
  · rw [hBytes]
    exact hNoNul

section

variable {parent : Parent}

theorem textSet_spec {chars : List Byte} {length : Nat} (line : Line)
    (hQuiet : parent.Quiet) (hNoNul : 0 ∉ chars.take length)
    (hFits : length ≤ chars.length) (hBound : length < 2 ^ 32) :
    ∃ line', textSet parent chars length line = some line' ∧
      Rewritten line line' (chars.take length) := by
  have hLength : (chars.take length).length = length := by
    rw [length_take, Nat.min_eq_left hFits]
  have hWrite : Block.write (Block.fresh parent.junk length) 0
      (chars.take length) = some (chars.take length) := by
    rw [Block.write_zero (by
        rw [hLength, Block.length_fresh]),
      drop_of_length_le (by
        rw [hLength, Block.length_fresh]), append_nil]
  refine ⟨{ line with
    modified := some (chars.take length)
    length := (chars.take length).length }, ?_,
    rewritten_of_buffer line hNoNul (hLength.symm ▸ hBound)⟩
  unfold textSet
  simp only [strncpy_of_noNul hNoNul hFits, hWrite, bind_eq_bind, bind_some]
  rw [hQuiet, hLength]

/- Three writes that fill a block -/
theorem write_three {m a b c : List Byte}
    (hLength : m.length = a.length + b.length + c.length) :
    ∃ m₁ m₂, Block.write m 0 a = some m₁ ∧
      Block.write m₁ a.length b = some m₂ ∧
      Block.write m₂ (a.length + b.length) c = some (a ++ b ++ c) := by
  have hFirst : Block.write m 0 a = some (a ++ m.drop a.length) := Block.write_zero (by omega)
  have hSecond : Block.write (a ++ m.drop a.length) a.length b =
      some (a ++ (b ++ (m.drop a.length).drop b.length)) :=
    Block.write_end a (by rw [length_drop]; omega)
  have hThird : Block.write (a ++ b ++ (m.drop a.length).drop b.length)
      (a ++ b).length c = some (a ++ b ++ (c ++ ((m.drop a.length).drop b.length).drop c.length)) :=
    Block.write_end (a ++ b) (by rw [length_drop, length_drop]; omega)
  rw [← append_assoc] at hSecond
  rw [length_append, drop_of_length_le (i := c.length) (by
      rw [length_drop, length_drop]; omega), append_nil] at hThird
  exact ⟨_, _, hFirst, hSecond, hThird⟩

theorem write_two {m a b : List Byte}
    (hLength : m.length = a.length + b.length) :
    ∃ m₁, Block.write m 0 a = some m₁ ∧ Block.write m₁ a.length b = some (a ++ b) := by
  rcases write_three (c := []) (show m.length =
    a.length + b.length + [].length from hLength) with ⟨m₁, m₂, hFirst, hSecond, hThird⟩
  refine ⟨m₁, hFirst, ?_⟩
  have hFull : m₂.length = a.length + b.length := by
    rw [Block.length_write hSecond, Block.length_write hFirst, hLength]
  rw [hSecond]
  unfold Block.write at hThird
  rw [if_pos (by rw [hFull]; exact Nat.le_refl _)] at hThird
  have hSame := some.inj hThird
  rw [length_nil, Nat.add_zero, nil_append, take_append_drop, append_nil] at hSame
  rw [hSame]

theorem textInsert_spec {line : Line} {string : List Byte}
    (position : Nat) (hQuiet : parent.Quiet) (hOk : LineOk line) (hNoNul : 0 ∉ string)
    (hBound : line.length + string.length < 2 ^ 32) :
    ∃ line',
      textInsert parent position string string.length line =
        some line' ∧
      Rewritten line line' (line.bytes.take position ++ string ++ line.bytes.drop position) := by
  have hLength := hOk.length
  have hMin : line.bytes.take (min position line.length) = line.bytes.take position := by
    rw [← hLength, ← take_eq_take_min]
  have hDrop : line.bytes.drop (min position line.length) = line.bytes.drop position := by
    rw [← hLength, ← drop_eq_drop_min]
  have hPos : (line.bytes.take position).length = min position line.length := by
    rw [length_take, hLength]
  have hRest : (line.bytes.drop position).length = line.length - min position line.length := by
    rw [length_drop, hLength]
    omega
  rcases write_three (m := Block.fresh parent.junk
      (line.length + string.length)) (a := line.bytes.take position)
      (b := string) (c := line.bytes.drop position) (by
        rw [Block.length_fresh, hPos, hRest]
        omega) with ⟨m₁, m₂, hFirst, hSecond, hThird⟩
  rw [hPos] at hSecond hThird
  have hBefore : strncpy (line.readable 0) (min position line.length) =
      some (line.bytes.take position) := by
    rw [line.readable_eq, drop_zero, strncpy_of_noNul, hMin]
    · exact fun hMem => hOk.noNul (mem_of_mem_take hMem)
    · rw [hLength]
      exact Nat.min_le_right _ _
  have hAfter : strncpy (line.readable (min position line.length))
      (sub line.length (min position line.length)) = some (line.bytes.drop position) := by
    rw [line.readable_eq, hDrop, sub_of_le hOk.bound
      (Nat.min_le_right _ _), ← hRest, strncpy_of_noNul, take_length]
    · exact fun hMem => hOk.noNul (mem_of_mem_drop (mem_of_mem_take hMem))
    · exact Nat.le_refl _
  have hString : strncpy string string.length = some string := by
    rw [strncpy_of_noNul, take_length]
    · rw [take_length]
      exact hNoNul
    · exact Nat.le_refl _
  let bytes := line.bytes.take position ++ string ++ line.bytes.drop position
  have hTotal : bytes.length = line.length + string.length := by
    unfold bytes
    rw [length_append, length_append, hPos, hRest]
    omega
  have hClean : 0 ∉ bytes := by
    intro hMem
    rcases mem_append.mp hMem with hMem | hMem
    · rcases mem_append.mp hMem with hMem | hMem
      · exact hOk.noNul (mem_of_mem_take hMem)
      · exact hNoNul hMem
    · exact hOk.noNul (mem_of_mem_drop hMem)
  refine ⟨{ line with
    modified := some bytes
    length := bytes.length }, ?_, rewritten_of_buffer line hClean (hTotal.symm ▸ hBound)⟩
  unfold textInsert
  simp only [hBefore, hFirst, hString, hSecond, hAfter, hThird, bind_eq_bind, bind_some]
  rw [hQuiet, add_of_lt hBound, hTotal]

theorem textRemove_spec {line : Line} {position length : Nat}
    (hQuiet : parent.Quiet) (hOk : LineOk line)
    (hFits : position + length ≤ line.length) :
    ∃ line', textRemove parent position length line =
        some line' ∧
      Rewritten line line' (line.bytes.take position ++ line.bytes.drop (position + length)) := by
  have hLength := hOk.length
  have hLess := hOk.bound
  by_cases hZero : line.length = 0
  · have hNil : line.bytes = [] := by
      rw [← length_eq_zero_iff, hLength, hZero]
    refine ⟨line, if_pos hZero, rfl, rfl, ?_, hOk⟩
    rw [hNil, take_nil, drop_nil]
    rfl
  · have hPos : (line.bytes.take position).length =
        position := by
      rw [length_take, hLength]
      omega
    have hRest : (line.bytes.drop (position + length)).length =
        line.length - position - length := by
      rw [length_drop, hLength]
      omega
    rcases write_two (m := Block.fresh parent.junk
        (line.length - length)) (a := line.bytes.take position) (b :=
        line.bytes.drop (position + length)) (by
          rw [Block.length_fresh, hPos, hRest]
          omega) with ⟨m₁, hFirst, hSecond⟩
    rw [hPos] at hSecond
    have hBefore : strncpy (line.readable 0) position = some (line.bytes.take position) := by
      rw [line.readable_eq, drop_zero, strncpy_of_noNul]
      · exact fun hMem =>
          hOk.noNul (mem_of_mem_take hMem)
      · omega
    have hAfter : strncpy (line.readable (position + length))
        (sub (sub line.length position) length) = some (line.bytes.drop (position + length)) := by
      rw [line.readable_eq, sub_of_le hLess (by omega),
        sub_of_le (by omega) (by omega), ← hRest, strncpy_of_noNul, take_length]
      · exact fun hMem => hOk.noNul (mem_of_mem_drop (mem_of_mem_take hMem))
      · exact Nat.le_refl _
    let bytes := line.bytes.take position ++ line.bytes.drop (position + length)
    have hTotal : bytes.length = line.length - length := by
      unfold bytes
      rw [length_append, hPos, hRest]
      omega
    have hClean : 0 ∉ bytes := by
      intro hMem
      rcases mem_append.mp hMem with hMem | hMem
      · exact hOk.noNul (mem_of_mem_take hMem)
      · exact hOk.noNul (mem_of_mem_drop hMem)
    refine ⟨{ line with
      modified := some bytes
      length := bytes.length }, ?_, rewritten_of_buffer line hClean (by omega)⟩
    unfold textRemove
    rw [if_neg hZero]
    have hMin : min position line.length = position := Nat.min_eq_left (by omega)
    simp only [hMin, hBefore, hFirst, hAfter, hSecond, bind_eq_bind, bind_some]
    rw [hQuiet, sub_of_le hLess (by omega), hTotal]

/- A new line with a text of its own -/
theorem newLine_spec {content : List Byte} {length : Nat}
    (parent : Parent) (addr row : Nat) (hNoNul : 0 ∉ content.take length)
    (hFits : length ≤ content.length) (hBound : length < 2 ^ 32) :
    ∃ line,
      newLine parent addr content length row false =
        some line ∧
      line.addr = addr ∧ line.number = row ∧ line.bytes = content.take length ∧ LineOk line := by
  have hLength : (content.take length).length = length := by
    rw [length_take, Nat.min_eq_left hFits]
  rcases write_two (m := Block.fresh parent.junk (length + 1))
      (a := content.take length) (b := [0]) (by
        rw [Block.length_fresh, hLength]
        rfl) with ⟨m₁, hFirst, hSecond⟩
  rw [hLength] at hSecond
  have hBytes : (⟨addr, none, some (content.take length ++ [0]),
      length, row⟩ : Line).bytes = content.take length := by
    change (content.take length ++ [0]).take length = _
    rw [take_append_of_le_length (hLength.symm.le), take_take, Nat.min_self]
  refine ⟨⟨addr, none, some (content.take length ++ [0]),
    length, row⟩, ?_, rfl, rfl, hBytes, ?_, ?_, ?_, hBound⟩
  · unfold newLine
    rw [if_neg Bool.false_ne_true]
    simp only [strncpy_of_noNul hNoNul hFits, hFirst, hSecond, bind_eq_bind, bind_some]
  · exact some_ne_none _
  · rw [hBytes, hLength]
  · rw [hBytes]
    exact hNoNul

end

end Efl.Elementary.Code
