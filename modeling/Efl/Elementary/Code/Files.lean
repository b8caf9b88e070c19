import Efl.Elementary.Code.Lines
import Efl.Lib.Lists

/-
  The lines of a file, and their numbers.

  A file whose lines are `before ++ after` is changed between
  the two; the scans leave the lines before as they are and
  number the ones after anew.

  Main declarations:
    * `Numbered`, `numberFrom`
    * `Good`, `File.texts`
    * `onLine_middle`, `place_middle`
    * `lineInsert_spec`
-/

---
-- Numbers
---

namespace Efl.Elementary.Code

open Bytes List

/- The lines have the numbers from `k` on. -/
def Numbered : Nat → List Line → Prop
  | _, [] => True
  | k, line :: lines => line.number = k ∧ Numbered (k + 1) lines

/- The lines with the numbers from `k` on -/
def numberFrom : Nat → List Line → List Line
  | _, [] => []
  | k, line :: lines =>
    { line with number := k } :: numberFrom (k + 1) lines

theorem numbered_append (k : Nat) (before after : List Line) :
    Numbered k (before ++ after) ↔ Numbered k before ∧ Numbered (k + before.length) after := by
  induction before generalizing k with
  | nil => simp [Numbered]
  | cons line before ih =>
    rw [cons_append, Numbered, Numbered, ih, length_cons, and_assoc]
    have hSum : k + 1 + before.length = k + (before.length + 1) := by omega
    rw [hSum]

variable {lines : List Line} {line : Line}

theorem Numbered.number {k : Nat} (hNumbered : Numbered k lines)
    (hMem : line ∈ lines) : k ≤ line.number ∧ line.number < k + lines.length := by
  induction lines generalizing k with
  | nil => exact absurd hMem not_mem_nil
  | cons l lines ih =>
    rcases hNumbered with ⟨hHead, hRest⟩
    rw [length_cons]
    rcases mem_cons.mp hMem with rfl | hMem
    · omega
    · have hBounds := ih hRest hMem
      omega

theorem Numbered.map_number {k : Nat} (hNumbered : Numbered k lines) :
    lines.map Line.number = List.range' k lines.length := by
  induction lines generalizing k with
  | nil => rfl
  | cons line lines ih =>
    rcases hNumbered with ⟨rfl, hRest⟩
    rw [map_cons, ih hRest, length_cons, List.range'_succ]

section

variable (k : Nat) (lines : List Line)

theorem numbered_numberFrom : Numbered k (numberFrom k lines) := by
  induction lines generalizing k with
  | nil => trivial
  | cons line lines ih => exact ⟨rfl, ih (k + 1)⟩

@[simp] theorem map_addr_numberFrom : (numberFrom k lines).map Line.addr = lines.map Line.addr := by
  induction lines generalizing k with
  | nil => rfl
  | cons line lines ih => rw [numberFrom, map_cons, map_cons, ih]

@[simp] theorem map_bytes_numberFrom :
    (numberFrom k lines).map Line.bytes = lines.map Line.bytes := by
  induction lines generalizing k with
  | nil => rfl
  | cons line lines ih =>
    rw [numberFrom, map_cons, map_cons, ih]
    rfl

end

/- The number does not matter for the text. -/
theorem LineOk.number (hOk : LineOk line) (k : Nat) : LineOk { line with number := k } := by
  rcases hOk with ⟨hText, hLength, hNoNul, hBound⟩
  exact ⟨hText, hLength, hNoNul, hBound⟩

theorem mem_numberFrom {k : Nat} (hMem : line ∈ numberFrom k lines) :
    ∃ line₀ ∈ lines, line.addr = line₀.addr ∧ (LineOk line₀ → LineOk line) := by
  induction lines generalizing k with
  | nil => exact absurd hMem not_mem_nil
  | cons l lines ih =>
    rcases mem_cons.mp hMem with rfl | hMem
    · exact ⟨l, mem_cons_self, rfl, fun hOk => hOk.number k⟩
    · rcases ih hMem with ⟨line₀, hIn, hSame⟩
      exact ⟨line₀, mem_cons_of_mem l hIn, hSame⟩

variable {before : List Line}

/- The lines before a row keep their numbers. -/
theorem renumber_append {row : Nat} (r : Nat) (after : List Line)
    (hLess : ∀ line ∈ before, line.number < row) :
    renumber row r (before ++ after) = before ++ renumber row r after := by
  induction before with
  | nil => rfl
  | cons line before ih =>
    rw [forall_mem_cons] at hLess
    rw [cons_append, renumber, if_pos hLess.1, ih hLess.2, cons_append]

/- The other lines are numbered anew. -/
theorem renumber_eq {row : Nat} (r : Nat)
    (hLe : ∀ line ∈ lines, row ≤ line.number) : renumber row r lines = numberFrom r lines := by
  induction lines generalizing r with
  | nil => rfl
  | cons line lines ih =>
    rw [forall_mem_cons] at hLe
    rw [renumber, if_neg (Nat.not_lt.mpr hLe.1), ih (r + 1) hLe.2, numberFrom]

theorem removeRow_append {row : Nat} (r : Nat) (after : List Line)
    (hLess : ∀ line ∈ before, line.number < row) :
    removeRow row r (before ++ after) = before ++ removeRow row r after := by
  induction before with
  | nil => rfl
  | cons line before ih =>
    rw [forall_mem_cons] at hLess
    rw [cons_append, removeRow, if_pos hLess.1, ih hLess.2, cons_append]

theorem removeRow_eq {row : Nat} (r : Nat)
    (hLess : ∀ line ∈ lines, row < line.number) : removeRow row r lines = numberFrom r lines := by
  induction lines generalizing r with
  | nil => rfl
  | cons line lines ih =>
    rw [forall_mem_cons] at hLess
    rw [removeRow, if_neg (Nat.not_lt.mpr hLess.1.le),
      if_neg (Nat.ne_of_gt hLess.1), ih (r + 1) hLess.2, numberFrom]

---
-- Good Files
---

open Option

/- The texts of the lines -/
def File.texts (file : File) : List (List Byte) :=
  file.lines.map Line.bytes

/- The lines are in order, and told by their addresses. -/
structure Good (file : File) : Prop where
  ok : ∀ line ∈ file.lines, LineOk line
  numbered : Numbered 1 file.lines
  nodup : (file.lines.map Line.addr).Nodup
  fresh : ∀ line ∈ file.lines, line.addr < file.next

/- A function on one of the lines -/
theorem onLine_middle {after : List Line} {line' : Line} {f : Line → Option Line}
    (hNodup : ((before ++ line :: after).map Line.addr).Nodup)
    (hF : f line = some line') :
    onLine line.addr f (before ++ line :: after) = some (before ++ line' :: after) := by
  induction before with
  | nil =>
    rw [nil_append, onLine, if_pos rfl, hF]
    rfl
  | cons l before ih =>
    rw [cons_append, map_cons, nodup_cons] at hNodup
    have hOther : l.addr ≠ line.addr := by
      intro hSame
      refine hNodup.1 (mem_map.mpr ⟨line, ?_, hSame.symm⟩)
      exact mem_append_right before mem_cons_self
    rw [cons_append, onLine, if_neg hOther, ih hNodup.2]
    rfl

/- Another text of a line -/
theorem Good.rewrite {after : List Line} {line' : Line} {next : Nat}
    {bytes : List Byte} {f : Line → Option Line} (hGood : Good ⟨before ++ line :: after, next⟩)
    (hF : f line = some line') (hLine : Rewritten line line' bytes) :
    File.onLine ⟨before ++ line :: after, next⟩ line.addr f =
        some ⟨before ++ line' :: after, next⟩ ∧
      Good ⟨before ++ line' :: after, next⟩ := by
  rcases hGood with ⟨hOk, hNumbered, hNodup, hFresh⟩
  refine ⟨?_, ?_, ?_, ?_, ?_⟩
  · rw [File.onLine, onLine_middle hNodup hF]
    rfl
  · intro l hMem
    rcases mem_append.mp hMem with hIn | hIn
    · exact hOk l (mem_append_left _ hIn)
    · rcases mem_cons.mp hIn with rfl | hIn
      · exact hLine.ok
      · exact hOk l (mem_append_right _ (mem_cons_of_mem line hIn))
  · rw [numbered_append] at hNumbered ⊢
    refine ⟨hNumbered.1, ?_, hNumbered.2.2⟩
    rw [hLine.number]
    exact hNumbered.2.1
  · rw [map_append, map_cons] at hNodup ⊢
    rw [hLine.addr]
    exact hNodup
  · intro l hMem
    rcases mem_append.mp hMem with hIn | hIn
    · exact hFresh l (mem_append_left _ hIn)
    · rcases mem_cons.mp hIn with rfl | hIn
      · rw [hLine.addr]
        exact hFresh line (mem_append_right _ mem_cons_self)
      · exact hFresh l (mem_append_right _ (mem_cons_of_mem line hIn))

theorem appendRelative_middle (line : Line) {last : Line} (after : List Line)
    (hNodup : ((before ++ last :: after).map Line.addr).Nodup) :
    appendRelative line last (before ++ last :: after) = before ++ last :: line :: after := by
  induction before with
  | nil =>
    rw [nil_append, appendRelative, if_pos rfl]
    rfl
  | cons l before ih =>
    rw [cons_append, map_cons, nodup_cons] at hNodup
    have hOther : l.addr ≠ last.addr := by
      intro hSame
      refine hNodup.1 (mem_map.mpr ⟨last, ?_, hSame.symm⟩)
      exact mem_append_right before mem_cons_self
    rw [cons_append, appendRelative, if_neg hOther, ih hNodup.2]
    rfl

/- A new line is put where its row is. -/
theorem place_middle (line : Line) (before after : List Line)
    (hNodup : ((before ++ after).map Line.addr).Nodup) :
    place line (before.length + 1) (before ++ after) = before ++ line :: after := by
  unfold place
  rcases eq_nil_or_concat before with
    rfl | ⟨init, last, hLast⟩
  · exact if_pos rfl
  · rw [concat_eq_append] at hLast
    subst hLast
    rw [length_append, length_singleton, if_neg (by omega)]
    rw [append_assoc, singleton_append] at hNodup ⊢
    by_cases hEnd : init.length + 1 + 1 = (init ++ last :: after).length + 1
    · have hNil : after = [] := by
        rw [length_append, length_cons] at hEnd
        exact length_eq_zero_iff.mp (by omega)
      rw [if_pos hEnd, hNil, append_assoc]
    · rw [if_neg hEnd, if_neg (by omega)]
      have hLast : (init ++ last :: after)[init.length + 1 + 1 - 2]? = some last := by
        simp
      rw [hLast]
      dsimp only
      rw [appendRelative_middle line after hNodup, append_assoc]
      rfl

section

variable {parent : Parent} {before after : List Line} {next : Nat}

/- What the insertion of data does, before the numbers -/
theorem insertData_spec (content : List Byte) (length : Nat)
    (hQuiet : parent.Quiet) (hGood : Good ⟨before ++ after, next⟩)
    (hNoNul : 0 ∉ content.take length) (hFits : length ≤ content.length)
    (hBound : length < 2 ^ 32) :
    ∃ line, insertData parent ⟨before ++ after, next⟩ content length
        (before.length + 1) false =
      some ⟨before ++ line :: after, next + 1⟩ ∧
      line.addr = next ∧ line.number = before.length + 1 ∧
      line.bytes = content.take length ∧ LineOk line := by
  rcases newLine_spec parent next (before.length + 1) hNoNul hFits hBound with ⟨line, hNew, hLine⟩
  refine ⟨line, ?_, hLine⟩
  rw [insertData, hNew, bind_eq_bind, bind_some, hQuiet, place_middle line before after hGood.nodup]

/- A new line between others, with numbers after it -/
theorem Good.insert {line : Line} (hGood : Good ⟨before ++ after, next⟩) (hAddr : line.addr = next)
    (hNumber : line.number = before.length + 1) (hOk : LineOk line) :
    Good ⟨before ++ line :: numberFrom (before.length + 2) after,
      next + 1⟩ := by
  rcases hGood with ⟨hLines, hNumbered, hNodup, hFresh⟩
  refine ⟨?_, ?_, ?_, ?_⟩
  · intro l hMem
    rcases mem_append.mp hMem with hIn | hIn
    · exact hLines l (mem_append_left _ hIn)
    · rcases mem_cons.mp hIn with rfl | hIn
      · exact hOk
      · rcases mem_numberFrom hIn with ⟨l₀, hIn₀, -, hSame⟩
        exact hSame (hLines l₀ (mem_append_right _ hIn₀))
  · rw [numbered_append] at hNumbered ⊢
    refine ⟨hNumbered.1, by rw [hNumber, Nat.add_comm], ?_⟩
    have hSum : 1 + before.length + 1 = before.length + 2 := by
      omega
    rw [hSum]
    exact numbered_numberFrom _ _
  · rw [map_append] at hNodup
    rw [map_append, map_cons, map_addr_numberFrom, nodup_middle, nodup_cons]
    refine ⟨?_, hNodup⟩
    rw [← map_append]
    intro hMem
    rcases mem_map.mp hMem with ⟨l, hIn, hSame⟩
    have hLess := hFresh l hIn
    rw [hSame, hAddr] at hLess
    exact Nat.lt_irrefl _ hLess
  · intro l hMem
    rcases mem_append.mp hMem with hIn | hIn
    · exact (hFresh l (mem_append_left _ hIn)).trans (Nat.lt_succ_self next)
    · rcases mem_cons.mp hIn with rfl | hIn
      · rw [hAddr]
        exact Nat.lt_succ_self next
      · rcases mem_numberFrom hIn with ⟨l₀, hIn₀, hSame, -⟩
        rw [hSame]
        exact (hFresh l₀ (mem_append_right _ hIn₀)).trans (Nat.lt_succ_self next)

/- `elm_code_file_line_insert` after some lines -/
theorem lineInsert_spec (content : List Byte) (length : Nat)
    (hQuiet : parent.Quiet) (hGood : Good ⟨before ++ after, next⟩)
    (hNoNul : 0 ∉ content.take length) (hFits : length ≤ content.length)
    (hBound : length < 2 ^ 32) :
    ∃ line, lineInsert parent ⟨before ++ after, next⟩
        (before.length + 1) content length =
      some ⟨before ++ line ::
        numberFrom (before.length + 2) after, next + 1⟩ ∧
      line.bytes = content.take length ∧
      Good ⟨before ++ line :: numberFrom (before.length + 2) after, next + 1⟩ := by
  rcases insertData_spec content length hQuiet hGood hNoNul hFits hBound with
    ⟨line, hInsert, hAddr, hNumber, hBytes, hOk⟩
  refine ⟨line, ?_, hBytes, hGood.insert hAddr hNumber hOk⟩
  have hNumbered := hGood.numbered
  rw [numbered_append] at hNumbered
  have hBefore : ∀ l ∈ before, l.number < before.length + 1 := by
    intro l hMem
    have hBounds := hNumbered.1.number hMem
    omega
  have hAfter : ∀ l ∈ after, before.length + 1 ≤ l.number := by
    intro l hMem
    have hBounds := hNumbered.2.number hMem
    omega
  have hSelf : ({ line with number := before.length + 1 } : Line) =
      line := by
    rw [← hNumber]
  rw [lineInsert, hInsert, bind_eq_bind, bind_some, renumber_append _ _ hBefore, renumber,
    if_neg (by omega), hSelf, renumber_eq _ hAfter]

/- A line is taken out. -/
theorem Good.remove {line : Line}
    (hGood : Good ⟨before ++ line :: after, next⟩) :
    lineRemove ⟨before ++ line :: after, next⟩ line.number =
        ⟨before ++ numberFrom line.number after, next⟩ ∧
      Good ⟨before ++ numberFrom line.number after, next⟩ := by
  rcases hGood with ⟨hLines, hNumbered, hNodup, hFresh⟩
  rw [numbered_append] at hNumbered
  rcases hNumbered with ⟨hFirst, hNumber, hRest⟩
  constructor
  · have hBefore : ∀ l ∈ before, l.number < line.number := by
      intro l hMem
      have hBounds := hFirst.number hMem
      omega
    have hAfter : ∀ l ∈ after, line.number < l.number := by
      intro l hMem
      have hBounds := hRest.number hMem
      omega
    unfold lineRemove
    dsimp only
    rw [removeRow_append _ _ hBefore, removeRow,
      if_neg (Nat.lt_irrefl _), if_pos rfl, removeRow_eq _ hAfter]
  · refine ⟨?_, ?_, ?_, ?_⟩
    · intro l hMem
      rcases mem_append.mp hMem with hIn | hIn
      · exact hLines l (mem_append_left _ hIn)
      · rcases mem_numberFrom hIn with ⟨l₀, hIn₀, -, hSame⟩
        exact hSame (hLines l₀ (mem_append_right _ (mem_cons_of_mem line hIn₀)))
    · rw [numbered_append, ← hNumber]
      exact ⟨hFirst, numbered_numberFrom _ _⟩
    · rw [map_append, map_addr_numberFrom]
      rw [map_append, map_cons] at hNodup
      exact hNodup.sublist ((sublist_cons_self _ _).append_left _)
    · intro l hMem
      rcases mem_append.mp hMem with hIn | hIn
      · exact hFresh l (mem_append_left _ hIn)
      · rcases mem_numberFrom hIn with ⟨l₀, hIn₀, hSame, -⟩
        rw [hSame]
        exact hFresh l₀ (mem_append_right _ (mem_cons_of_mem line hIn₀))

end

end Efl.Elementary.Code
