import Efl.Elementary.Code.Files
import Efl.Lib.Runs

/-
  Sequences of operations on a file, against a list of byte
  strings.

  Main declarations:
    * `Op`, `step`
    * `Op.apply`
    * `splitAt_spec`, `mergeInto_spec`
    * `step_spec`
-/

---
-- Splitting and Merging
---

namespace Efl.Elementary.Code

open Bytes List Option

section

variable {parent : Parent} {before after : List Line} {next : Nat}

theorem Good.lineGet {line : Line}
    (hGood : Good ⟨before ++ line :: after, next⟩) : line.number = before.length + 1 := by
  have hNumbered := hGood.numbered
  rw [numbered_append] at hNumbered
  rw [hNumbered.2.1, Nat.add_comm]

theorem lineGet_middle
    (before after : List Line) (line : Line) (next : Nat) :
    File.lineGet ⟨before ++ line :: after, next⟩ (before.length + 1) = some line := by
  unfold File.lineGet
  simp

theorem textSet_middle {line : Line} (chars : List Byte) (length : Nat) (hQuiet : parent.Quiet)
    (hGood : Good ⟨before ++ line :: after, next⟩) (hNoNul : 0 ∉ chars.take length)
    (hFits : length ≤ chars.length) (hBound : length < 2 ^ 32) :
    ∃ line', File.textSet parent ⟨before ++ line :: after, next⟩
        (some line) chars length =
      some ⟨before ++ line' :: after, next⟩ ∧
      Good ⟨before ++ line' :: after, next⟩ ∧ line'.bytes = chars.take length := by
  rcases textSet_spec line hQuiet hNoNul hFits hBound with ⟨line', hSet, hLine⟩
  have hBoth := hGood.rewrite hSet hLine
  exact ⟨line', hBoth.1, hBoth.2, hLine.bytes⟩

/- A line becomes two. -/
theorem splitAt_spec {line : Line} {position : Nat} (hQuiet : parent.Quiet)
    (hGood : Good ⟨before ++ line :: after, next⟩)
    (hPosition : position ≤ line.length) :
    ∃ file, splitAt parent ⟨before ++ line :: after,
      next⟩ line position = some file ∧ Good file ∧
      file.texts = before.map Line.bytes ++ line.bytes.take position ::
      line.bytes.drop position :: after.map Line.bytes := by
  have hOk := hGood.ok line (mem_append_right before mem_cons_self)
  have hLength := hOk.length
  have hLess := hOk.bound
  have hNumber := hGood.lineGet
  have hDup : strndup (line.readable 0) line.length = some (line.bytes ++ [0]) := by
    rw [line.readable_eq, drop_zero, ← hLength]
    exact strndup_of_noNul hOk.noNul
  have hBetween : before ++ line :: after =
      (before ++ [line]) ++ after := by simp
  -- a new line without a text
  rw [hBetween] at hGood ⊢
  rcases lineInsert_spec [0] 0 hQuiet hGood not_mem_nil
    (Nat.zero_le _) (by decide) with ⟨new, hInsert, hNew, hGood₁⟩
  have hGet := lineGet_middle (before ++ [line])
    (numberFrom ((before ++ [line]).length + 2) after) new (next + 1)
  -- the new line gets the end of the text
  have hDrop : (line.bytes ++ [0]).drop position =
      line.bytes.drop position ++ [0] := drop_append_of_le_length (by omega)
  have hRest : (line.bytes.drop position).length = sub line.length position := by
    rw [length_drop, hLength, sub_of_le hLess hPosition]
  have hTake : ((line.bytes ++ [0]).drop position).take
      (sub line.length position) = line.bytes.drop position := by
    rw [hDrop, ← hRest, take_left]
  rcases textSet_middle ((line.bytes ++ [0]).drop position)
      (sub line.length position) hQuiet hGood₁ (by
        rw [hTake]
        exact fun hMem => hOk.noNul (mem_of_mem_drop hMem))
      (by
        rw [hDrop, length_append, hRest]
        omega)
      (by
        rw [sub_of_le hLess hPosition]
        omega) with ⟨new', hSetNew, hGood₂, hNew'⟩
  rw [hTake] at hNew'
  -- the old line keeps the start of it
  have hFirst : (line.bytes ++ [0]).take position = line.bytes.take position :=
    take_append_of_le_length (by omega)
  rw [append_assoc, singleton_append] at hGood₂
  rcases textSet_middle (line.bytes ++ [0]) position hQuiet hGood₂ (by
        rw [hFirst]
        exact fun hMem => hOk.noNul (mem_of_mem_take hMem))
      (by
        rw [length_append]
        omega) (by omega) with ⟨line', hSetLine, hGood₃, hLine'⟩
  rw [hFirst] at hLine'
  refine ⟨_, ?_, hGood₃, ?_⟩
  · unfold splitAt
    cases hText : line.text with
    | none => exact absurd hText hOk.text
    | some text =>
      have hRow : line.number + 1 = (before ++ [line]).length + 1 := by
        rw [hNumber, length_append]
        rfl
      dsimp only
      rw [hDup, hRow]
      simp only [hInsert, hGet, hSetNew, bind_eq_bind, bind_some]
      rw [append_assoc]
      exact hSetLine
  · unfold File.texts
    simp [hLine', hNew']

/- Without bytes there is nothing to read. -/
theorem copyText_of_empty {line : Line} (newtext : List Byte)
    (pos : Nat) (hEmpty : line.length = 0) :
    copyText newtext pos line = some newtext := if_neg (by omega)

/- Two lines without bytes become one. -/
theorem mergeInto_spec {line₁ line₂ : Line} (hQuiet : parent.Quiet)
    (hGood : Good ⟨before ++ line₁ :: line₂ :: after, next⟩)
    (hEmpty₁ : line₁.length = 0) (hEmpty₂ : line₂.length = 0) :
    ∃ file, mergeInto parent ⟨before ++ line₁ :: line₂ :: after, next⟩
      line₁ line₂ = some file ∧
      Good file ∧ file.texts = before.map Line.bytes ++ [] :: after.map Line.bytes := by
  have hBetween : before ++ line₁ :: line₂ :: after =
      (before ++ [line₁]) ++ line₂ :: after := by simp
  rw [hBetween] at hGood ⊢
  rcases hGood.remove with ⟨hRemove, hGood₁⟩
  rw [append_assoc, singleton_append] at hGood₁
  rcases textSet_middle (Block.fresh parent.junk 1) 0 hQuiet
    hGood₁ not_mem_nil (Nat.zero_le _) (by decide) with ⟨line', hSet, hGood₂, hLine'⟩
  refine ⟨_, ?_, hGood₂, ?_⟩
  · have hLength : add (add line₁.length line₂.length) 1 = 1 := by
      rw [hEmpty₁, hEmpty₂]
      rfl
    have hSum : add line₁.length line₂.length = 0 := by
      rw [hEmpty₁, hEmpty₂]
      rfl
    unfold mergeInto
    dsimp only
    rw [hLength, hSum, copyText_of_empty _ _ hEmpty₁,
      bind_eq_bind, bind_some, copyText_of_empty _ _ hEmpty₂,
      bind_some, hRemove, append_assoc, singleton_append]
    exact hSet
  · unfold File.texts
    rw [map_append, map_cons, map_bytes_numberFrom, hLine', take_zero]

end

---
-- Operations
---

/-
  The operations; a line is the one that
  `elm_code_file_line_get` gives for a row.
-/
inductive Op where
  | append (text : List Byte)
  | insert (row : Nat) (text : List Byte)
  | remove (row : Nat)
  | textSet (row : Nat) (text : List Byte)
  | textInsert (row position : Nat) (text : List Byte)
  | textRemove (row position length : Nat)
  | splitAt (row position : Nat)
  | mergeUp (row : Nat)
  | mergeDown (row : Nat)

/- An operation on a line that has to be there -/
def File.atRow (file : File) (row : Nat) (f : Line → Option File) : Option File :=
  (file.lineGet row).bind f

def step (parent : Parent) (file : File) : Op → Option File
  | .append text => lineAppend parent file text
  | .insert row text => lineInsert parent file row text text.length
  | .remove row => some (lineRemove file row)
  | .textSet row text =>
    file.atRow row fun line =>
      file.onLine line.addr
        (Code.textSet parent text text.length)
  | .textInsert row position text =>
    file.atRow row fun line =>
      file.onLine line.addr
        (Code.textInsert parent position text text.length)
  | .textRemove row position length =>
    file.atRow row fun line =>
      file.onLine line.addr
        (Code.textRemove parent position length)
  | .splitAt row position =>
    file.atRow row fun line =>
      Code.splitAt parent file line position
  | .mergeUp row => file.atRow row (Code.mergeUp parent file)
  | .mergeDown row => file.atRow row (Code.mergeDown parent file)

/- Line `i` and the next one become one. -/
def mergeTexts (i : Nat) (texts : List (List Byte)) : List (List Byte) :=
  (texts.modify i (· ++ texts.getD (i + 1) [])).eraseIdx (i + 1)

/- The operations on a list of byte strings -/
def Op.apply (texts : List (List Byte)) : Op → List (List Byte)
  | .append text => texts ++ [text]
  | .insert row text => texts.insertIdx (row - 1) text
  | .remove row => texts.eraseIdx (row - 1)
  | .textSet row text => texts.set (row - 1) text
  | .textInsert row position text =>
    texts.modify (row - 1) fun t =>
      t.take position ++ text ++ t.drop position
  | .textRemove row position length =>
    texts.modify (row - 1) fun t =>
      t.take position ++ t.drop (position + length)
  | .splitAt row position =>
    (texts.modify (row - 1) (·.take position)).insertIdx row
      ((texts.getD (row - 1) []).drop position)
  | .mergeUp row =>
    if row = 1 then texts else mergeTexts (row - 2) texts
  | .mergeDown row => mergeTexts (row - 1) texts

/- Lines that are merged have no bytes. -/
def File.Empty (file : File) (row : Nat) : Prop :=
  ∀ line, file.lineGet row = some line → line.length = 0

/-
  The arguments are ones of the functions, and the operation
  is no merge of lines with bytes, no removal of row 0, and
  no text or number of lines that is too large.
-/
def Allowed (file : File) : Op → Prop
  | .append text =>
    0 ∉ text ∧ text.length < 2 ^ 31 ∧
      file.lines.length + 1 < 2 ^ 31
  | .insert row text =>
    0 ∉ text ∧ text.length < 2 ^ 31 ∧
      1 ≤ row ∧ row ≤ file.lines.length + 1 ∧
      file.lines.length + 1 < 2 ^ 31
  | .remove row => row = 0 → file.lines = []
  | .textSet row text =>
    0 ∉ text ∧ text.length < 2 ^ 32 ∧
      (file.lineGet row).isSome
  | .textInsert row _ text =>
    0 ∉ text ∧
      ∃ line, file.lineGet row = some line ∧
        line.length + text.length < 2 ^ 32
  | .textRemove row position length =>
    ∃ line, file.lineGet row = some line ∧
      position + length ≤ line.length
  | .splitAt row position =>
    file.lines.length + 1 < 2 ^ 31 ∧
      ∃ line, file.lineGet row = some line ∧
        position ≤ line.length
  | .mergeUp row =>
    (file.lineGet row).isSome ∧
      ((file.lineGet (row - 1)).isSome →
        file.Empty row ∧ file.Empty (row - 1))
  | .mergeDown row =>
    (file.lineGet row).isSome ∧
      ((file.lineGet (row + 1)).isSome →
        file.Empty row ∧ file.Empty (row + 1))

---
-- One Operation
---

/- Changes between two parts of a list -/
section

variable {α : Type} (as cs : List α) (b : α)

theorem insertIdx_middle : (as ++ cs).insertIdx as.length b = as ++ b :: cs := by
  induction as with
  | nil => rfl
  | cons a as ih =>
    rw [cons_append, length_cons, insertIdx_succ_cons, ih, cons_append]

theorem eraseIdx_middle : (as ++ b :: cs).eraseIdx as.length = as ++ cs := by
  rw [eraseIdx_append_of_length_le (Nat.le_refl _), Nat.sub_self]
  rfl

theorem modify_middle (f : α → α) : (as ++ b :: cs).modify as.length f = as ++ f b :: cs := by
  induction as with
  | nil => rfl
  | cons a as ih =>
    rw [cons_append, length_cons, modify_succ_cons, ih, cons_append]

theorem set_middle (x : α) : (as ++ b :: cs).set as.length x = as ++ x :: cs := by
  rw [set_append_right _ _ (Nat.le_refl _), Nat.sub_self]
  rfl

theorem getD_middle (d : α) : (as ++ b :: cs).getD as.length d = b := by
  simp

end

theorem mergeTexts_middle
    (before after : List (List Byte)) (t u : List Byte) :
    mergeTexts before.length (before ++ t :: u :: after) = before ++ (t ++ u) :: after := by
  have hBetween : before ++ t :: u :: after =
      (before ++ [t]) ++ u :: after := by simp
  have hNext : (before ++ t :: u :: after).getD (before.length + 1) [] = u := by
    have hGet := getD_middle (before ++ [t]) after u []
    rw [length_append, length_singleton] at hGet
    rw [hBetween, hGet]
  have hErase := eraseIdx_middle (before ++ [t ++ u]) after u
  rw [length_append, length_singleton, append_assoc,
    append_assoc, singleton_append, singleton_append] at hErase
  rw [mergeTexts, hNext, modify_middle, hErase]

/- The row of a line tells what is before it. -/
theorem lineGet_cases {file : File} {row : Nat} {line : Line}
    (hGet : file.lineGet row = some line) :
    ∃ before after, row = before.length + 1 ∧ file = ⟨before ++ line :: after, file.next⟩ := by
  unfold File.lineGet at hGet
  cases row with
  | zero => exact nomatch hGet
  | succ n =>
    refine ⟨_, _, ?_, congrArg (File.mk · file.next) (Lists.split_get hGet)⟩
    have hLess := (List.getElem?_eq_some_iff.mp hGet).1
    rw [length_take, Nat.min_eq_left hLess.le]

theorem lineGet_succ
    (before after : List Line) (line : Line) (next : Nat) :
    File.lineGet ⟨before ++ line :: after, next⟩ (before.length + 2) = after.head? := by
  unfold File.lineGet
  dsimp only
  rw [getElem?_append_right (by omega)]
  cases after <;> simp

theorem lineGet_last
    (init after : List Line) (last line : Line) (next : Nat) :
    File.lineGet ⟨(init ++ [last]) ++ line :: after, next⟩ (init ++ [last]).length = some last := by
  rw [length_append, length_singleton, append_assoc, singleton_append]
  exact lineGet_middle init (line :: after) last next

/- A function on a line that stays a line -/
theorem onLine_spec {before after : List Line} {line line' : Line}
    {next : Nat} {bytes : List Byte} {f : Line → Option Line}
    (hGood : Good ⟨before ++ line :: after, next⟩)
    (hF : f line = some line') (hLine : Rewritten line line' bytes) :
    ∃ file, (File.atRow ⟨before ++ line :: after, next⟩
        (before.length + 1) fun l =>
          File.onLine ⟨before ++ line :: after, next⟩ l.addr f) =
        some file ∧
      Good file ∧ file.texts = before.map Line.bytes ++ bytes :: after.map Line.bytes := by
  rcases hGood.rewrite hF hLine with ⟨hSet, hGood'⟩
  refine ⟨_, ?_, hGood', ?_⟩
  · rw [File.atRow, lineGet_middle, bind_some]
    exact hSet
  · unfold File.texts
    rw [map_append, map_cons, hLine.bytes]

theorem texts_middle
    (before after : List Line) (line : Line) (next : Nat) :
    File.texts ⟨before ++ line :: after, next⟩ =
      before.map Line.bytes ++ line.bytes :: after.map Line.bytes := by
  unfold File.texts
  rw [map_append, map_cons]

/- The last text is joined with no other. -/
theorem mergeTexts_last (before : List (List Byte)) (t : List Byte) :
    mergeTexts before.length (before ++ [t]) = before ++ [t] := by
  have hNone : (before ++ [t]).getD (before.length + 1) [] = [] := by
    simp
  rw [mergeTexts, hNone, modify_middle, append_nil, eraseIdx_of_length_le]
  rw [length_append]
  exact Nat.le_refl _

theorem LineOk.bytes_eq_nil {line : Line} (hOk : LineOk line)
    (hEmpty : line.length = 0) : line.bytes = [] := by
  rw [← length_eq_zero_iff, hOk.length, hEmpty]

section

variable {parent : Parent} {file : File}

theorem append_step {text : List Byte} (hQuiet : parent.Quiet)
    (hGood : Good file) (hAllowed : Allowed file (.append text)) :
    ∃ file', step parent file (.append text) = some file' ∧
      Good file' ∧ file'.texts = Op.apply file.texts (.append text) := by
  rcases file with ⟨lines, next⟩
  rcases hAllowed with ⟨hNoNul, hLess, -⟩
  rw [← append_nil lines] at hGood
  rcases insertData_spec text text.length hQuiet hGood
      (by rw [take_length]; exact hNoNul) (Nat.le_refl _) (by omega) with
    ⟨line, hInsert, hAddr, hNumber, hBytes, hOk⟩
  rw [take_length] at hBytes
  rw [append_nil] at hInsert
  refine ⟨_, hInsert, hGood.insert hAddr hNumber hOk, ?_⟩
  rw [texts_middle, hBytes]
  rfl

theorem insert_step {row : Nat} {text : List Byte} (hQuiet : parent.Quiet) (hGood : Good file)
    (hAllowed : Allowed file (.insert row text)) :
    ∃ file', step parent file (.insert row text) = some file' ∧
      Good file' ∧ file'.texts = Op.apply file.texts (.insert row text) := by
  rcases file with ⟨lines, next⟩
  rcases hAllowed with ⟨hNoNul, hLess, hLow, hHigh, -⟩
  obtain ⟨before, after, rfl, hLength⟩ :
      ∃ before after, lines = before ++ after ∧ row = before.length + 1 := by
    refine ⟨lines.take (row - 1), lines.drop (row - 1), (take_append_drop _ _).symm, ?_⟩
    dsimp only at hHigh
    rw [length_take]
    omega
  subst hLength
  rcases lineInsert_spec text text.length hQuiet hGood
      (by rw [take_length]; exact hNoNul) (Nat.le_refl _) (by omega) with
    ⟨line, hInsert, hBytes, hGood'⟩
  rw [take_length] at hBytes
  refine ⟨_, hInsert, hGood', ?_⟩
  have hInsertIdx := insertIdx_middle (before.map Line.bytes) (after.map Line.bytes) text
  rw [length_map, ← map_append] at hInsertIdx
  rw [texts_middle, hBytes, map_bytes_numberFrom]
  exact hInsertIdx.symm

theorem remove_step {row : Nat} (hGood : Good file)
    (hAllowed : Allowed file (.remove row)) :
    ∃ file', step parent file (.remove row) = some file' ∧
      Good file' ∧ file'.texts = Op.apply file.texts (.remove row) := by
  refine ⟨_, rfl, ?_⟩
  cases hGet : file.lineGet row with
  | some line =>
    rcases lineGet_cases hGet with ⟨before, after, rfl, hFile⟩
    rw [hFile] at hGood ⊢
    have hRemove := hGood.remove
    rw [hGood.lineGet] at hRemove
    rw [hRemove.1]
    refine ⟨hRemove.2, ?_⟩
    have hErase := eraseIdx_middle (before.map Line.bytes) (after.map Line.bytes) line.bytes
    rw [length_map] at hErase
    rw [texts_middle]
    unfold File.texts
    rw [map_append, map_bytes_numberFrom]
    exact hErase.symm
  | none =>
    have hLength : file.lines.length < row ∨ file.lines = [] := by
      cases row with
      | zero => exact Or.inr (hAllowed rfl)
      | succ n =>
        have hLe := List.getElem?_eq_none_iff.mp hGet
        exact Or.inl (Nat.lt_succ_of_le hLe)
    have hSame : lineRemove file row = file := by
      have hAll : ∀ l ∈ file.lines, l.number < row := by
        intro l hMem
        have hBounds := hGood.numbered.number hMem
        rcases hLength with hLess | hNil
        · omega
        · rw [hNil] at hMem
          exact absurd hMem not_mem_nil
      have hScan := removeRow_append row [] hAll
      rw [append_nil] at hScan
      unfold lineRemove
      rw [hScan]
      change (⟨file.lines ++ [], file.next⟩ : File) = file
      rw [append_nil]
    rw [hSame]
    refine ⟨hGood, ?_⟩
    have hErase : file.texts.length ≤ row - 1 := by
      unfold File.texts
      rw [length_map]
      rcases hLength with hLess | hNil
      · omega
      · rw [hNil]
        exact Nat.zero_le _
    exact (eraseIdx_of_length_le hErase).symm

section

variable (hQuiet : parent.Quiet)

include hQuiet

section

variable (hGood : Good file)

include hGood

theorem textSet_step {row : Nat} {text : List Byte}
    (hAllowed : Allowed file (.textSet row text)) :
    ∃ file', step parent file (.textSet row text) = some file' ∧
      Good file' ∧ file'.texts = Op.apply file.texts (.textSet row text) := by
  rcases hAllowed with ⟨hNoNul, hLess, hSome⟩
  rcases isSome_iff_exists.mp hSome with ⟨line, hGet⟩
  rcases lineGet_cases hGet with ⟨before, after, rfl, hFile⟩
  rw [hFile] at hGood ⊢
  rcases textSet_spec line hQuiet (by rw [take_length]; exact hNoNul)
      (Nat.le_refl text.length) hLess with ⟨line', hSet, hLine⟩
  rw [take_length] at hLine
  rcases onLine_spec hGood hSet hLine with ⟨file', hStep, hGood', hTexts⟩
  refine ⟨file', hStep, hGood', ?_⟩
  have hSetIdx := set_middle (before.map Line.bytes) (after.map Line.bytes) line.bytes text
  rw [length_map] at hSetIdx
  rw [hTexts, texts_middle]
  exact hSetIdx.symm

theorem textInsert_step {row position : Nat} {text : List Byte}
    (hAllowed : Allowed file (.textInsert row position text)) :
    ∃ file', step parent file (.textInsert row position text) =
        some file' ∧
      Good file' ∧ file'.texts = Op.apply file.texts (.textInsert row position text) := by
  rcases hAllowed with ⟨hNoNul, line, hGet, hLess⟩
  rcases lineGet_cases hGet with ⟨before, after, rfl, hFile⟩
  rw [hFile] at hGood ⊢
  have hOk := hGood.ok line (mem_append_right before mem_cons_self)
  rcases textInsert_spec position hQuiet hOk hNoNul hLess with ⟨line', hInsert, hLine⟩
  rcases onLine_spec hGood hInsert hLine with ⟨file', hStep, hGood', hTexts⟩
  refine ⟨file', hStep, hGood', ?_⟩
  have hModify := modify_middle (before.map Line.bytes)
    (after.map Line.bytes) line.bytes fun t =>
      t.take position ++ text ++ t.drop position
  rw [length_map] at hModify
  rw [hTexts, texts_middle]
  exact hModify.symm

theorem textRemove_step {row position length : Nat}
    (hAllowed : Allowed file (.textRemove row position length)) :
    ∃ file', step parent file
        (.textRemove row position length) = some file' ∧
      Good file' ∧ file'.texts = Op.apply file.texts (.textRemove row position length) := by
  rcases hAllowed with ⟨line, hGet, hFits⟩
  rcases lineGet_cases hGet with ⟨before, after, rfl, hFile⟩
  rw [hFile] at hGood ⊢
  have hOk := hGood.ok line (mem_append_right before mem_cons_self)
  rcases textRemove_spec hQuiet hOk hFits with ⟨line', hRemove, hLine⟩
  rcases onLine_spec hGood hRemove hLine with ⟨file', hStep, hGood', hTexts⟩
  refine ⟨file', hStep, hGood', ?_⟩
  have hModify := modify_middle (before.map Line.bytes)
    (after.map Line.bytes) line.bytes fun t =>
      t.take position ++ t.drop (position + length)
  rw [length_map] at hModify
  rw [hTexts, texts_middle]
  exact hModify.symm

theorem splitAt_step {row position : Nat}
    (hAllowed : Allowed file (.splitAt row position)) :
    ∃ file', step parent file (.splitAt row position) =
        some file' ∧
      Good file' ∧ file'.texts = Op.apply file.texts (.splitAt row position) := by
  rcases hAllowed with ⟨-, line, hGet, hPosition⟩
  rcases lineGet_cases hGet with ⟨before, after, rfl, hFile⟩
  rw [hFile] at hGood ⊢
  rcases splitAt_spec hQuiet hGood hPosition with ⟨file', hSplit, hGood', hTexts⟩
  refine ⟨file', ?_, hGood', ?_⟩
  · rw [step, File.atRow, lineGet_middle, bind_some]
    exact hSplit
  · have hModify := modify_middle (before.map Line.bytes)
      (after.map Line.bytes) line.bytes (·.take position)
    have hGetD := getD_middle (before.map Line.bytes) (after.map Line.bytes) line.bytes []
    have hInsert := insertIdx_middle (before.map Line.bytes ++ [line.bytes.take position])
      (after.map Line.bytes) (line.bytes.drop position)
    rw [length_append, length_singleton, length_map, append_assoc,
      append_assoc, singleton_append, singleton_append] at hInsert
    rw [length_map] at hModify hGetD
    rw [hTexts, texts_middle, Op.apply, Nat.add_sub_cancel, hModify, hGetD, hInsert]

theorem mergeUp_step {row : Nat} (hAllowed : Allowed file (.mergeUp row)) :
    ∃ file', step parent file (.mergeUp row) = some file' ∧
      Good file' ∧ file'.texts = Op.apply file.texts (.mergeUp row) := by
  rcases hAllowed with ⟨hSome, hEmpty⟩
  rcases isSome_iff_exists.mp hSome with ⟨line, hGet⟩
  rcases lineGet_cases hGet with ⟨before, after, rfl, hFile⟩
  have hEmptyLine := fun hOther =>
    (hEmpty hOther).1 line hGet
  have hEmptyOther := fun hOther => (hEmpty hOther).2
  unfold File.Empty at hEmptyOther
  rw [Nat.add_sub_cancel] at hEmptyLine hEmptyOther
  rw [hFile] at hGood hEmptyLine hEmptyOther ⊢
  have hNumber := hGood.lineGet
  rcases eq_nil_or_concat before with
    rfl | ⟨init, last, hConcat⟩
  · refine ⟨_, ?_, hGood, rfl⟩
    rw [step, File.atRow, lineGet_middle, bind_some, mergeUp, hNumber]
    rfl
  · rw [concat_eq_append] at hConcat
    subst hConcat
    have hOther := lineGet_last init after last line file.next
    rw [hOther] at hEmptyLine hEmptyOther
    have hZero := hEmptyLine rfl
    have hZeroLast := hEmptyOther rfl last rfl
    have hBetween : (init ++ [last]) ++ line :: after =
        init ++ last :: line :: after := by simp
    have hOk := hGood.ok line (mem_append_right _ mem_cons_self)
    have hOkLast := hGood.ok last (by simp)
    have hGood' := hGood
    rw [hBetween] at hGood'
    rcases mergeInto_spec hQuiet hGood' hZeroLast hZero with ⟨file', hMerge, hGood'', hTexts⟩
    refine ⟨file', ?_, hGood'', ?_⟩
    · rw [step, File.atRow, lineGet_middle, bind_some, mergeUp, hNumber, Nat.add_sub_cancel, hOther]
      dsimp only
      rw [hBetween]
      exact hMerge
    · have hMergeTexts := mergeTexts_middle (init.map Line.bytes)
        (after.map Line.bytes) last.bytes line.bytes
      rw [hOk.bytes_eq_nil hZero, hOkLast.bytes_eq_nil hZeroLast, length_map] at hMergeTexts
      have hRow : (init ++ [last]).length + 1 - 2 = init.length := by
        rw [length_append, length_singleton]
        omega
      rw [Op.apply, if_neg (by simp), hTexts, hBetween,
        texts_middle, map_cons, hOk.bytes_eq_nil hZero, hOkLast.bytes_eq_nil hZeroLast, hRow]
      exact hMergeTexts.symm

theorem mergeDown_step {row : Nat} (hAllowed : Allowed file (.mergeDown row)) :
    ∃ file', step parent file (.mergeDown row) = some file' ∧
      Good file' ∧ file'.texts = Op.apply file.texts (.mergeDown row) := by
  rcases hAllowed with ⟨hSome, hEmpty⟩
  rcases isSome_iff_exists.mp hSome with ⟨line, hGet⟩
  rcases lineGet_cases hGet with ⟨before, after, rfl, hFile⟩
  have hEmptyLine := fun hOther =>
    (hEmpty hOther).1 line hGet
  have hEmptyOther := fun hOther => (hEmpty hOther).2
  unfold File.Empty at hEmptyOther
  rw [hFile] at hGood hEmptyLine hEmptyOther ⊢
  have hNumber := hGood.lineGet
  have hNext := lineGet_succ before after line file.next
  rw [hNext] at hEmptyLine hEmptyOther
  cases after with
  | nil =>
    refine ⟨_, ?_, hGood, ?_⟩
    · rw [step, File.atRow, lineGet_middle, bind_some, mergeDown, hNumber, hNext]
      rfl
    · have hLast := mergeTexts_last (before.map Line.bytes) line.bytes
      rw [length_map] at hLast
      rw [texts_middle]
      exact hLast.symm
  | cons other after =>
    have hZero := hEmptyLine rfl
    have hZeroOther := hEmptyOther rfl other rfl
    have hOk := hGood.ok line (mem_append_right _ mem_cons_self)
    have hOkOther := hGood.ok other (by simp)
    rcases mergeInto_spec hQuiet hGood hZero hZeroOther with ⟨file', hMerge, hGood', hTexts⟩
    refine ⟨file', ?_, hGood', ?_⟩
    · rw [step, File.atRow, lineGet_middle, bind_some, mergeDown, hNumber, hNext]
      exact hMerge
    · have hMergeTexts := mergeTexts_middle (before.map Line.bytes)
        (after.map Line.bytes) line.bytes other.bytes
      rw [hOk.bytes_eq_nil hZero, hOkOther.bytes_eq_nil hZeroOther, length_map] at hMergeTexts
      rw [hTexts, texts_middle, map_cons, hOk.bytes_eq_nil hZero, hOkOther.bytes_eq_nil hZeroOther]
      exact hMergeTexts.symm

/- An operation does to the texts what it should. -/
theorem step_spec {op : Op} (hAllowed : Allowed file op) :
    ∃ file', step parent file op = some file' ∧
      Good file' ∧ file'.texts = Op.apply file.texts op := by
  cases op with
  | append text => exact append_step hQuiet hGood hAllowed
  | insert row text => exact insert_step hQuiet hGood hAllowed
  | remove row => exact remove_step hGood hAllowed
  | textSet row text => exact textSet_step hQuiet hGood hAllowed
  | textInsert row position text =>
    exact textInsert_step hQuiet hGood hAllowed
  | textRemove row position length =>
    exact textRemove_step hQuiet hGood hAllowed
  | splitAt row position => exact splitAt_step hQuiet hGood hAllowed
  | mergeUp row => exact mergeUp_step hQuiet hGood hAllowed
  | mergeDown row => exact mergeDown_step hQuiet hGood hAllowed

end

end

end

---
-- Sequences of Operations
---

/- A line of a mapped file -/
structure Mapped (line : List Byte × Nat) : Prop where
  length : line.2 ≤ line.1.length
  noNul : 0 ∉ line.1.take line.2
  bound : line.2 < 2 ^ 32

theorem insertMapped_spec {parent : Parent} {file : File}
    {line : List Byte × Nat} (hQuiet : parent.Quiet) (hGood : Good file)
    (hMapped : Mapped line) :
    ∃ file', insertData parent file line.1 line.2
        (file.lines.length + 1) true = some file' ∧
      Good file' ∧ file'.texts = file.texts ++ [line.1.take line.2] := by
  rcases file with ⟨lines, next⟩
  let new : Line := ⟨next, some line.1, none, line.2, lines.length + 1⟩
  have hOk : LineOk new := by
    refine ⟨some_ne_none _, ?_, hMapped.noNul, hMapped.bound⟩
    change (line.1.take line.2).length = line.2
    rw [length_take, Nat.min_eq_left hMapped.length]
  rw [← append_nil lines] at hGood
  have hPlace := place_middle new lines [] hGood.nodup
  rw [append_nil] at hPlace
  refine ⟨⟨lines ++ [new], next + 1⟩, ?_, hGood.insert rfl rfl hOk, texts_middle lines [] new _⟩
  unfold insertData newLine
  dsimp only
  rw [if_pos rfl, bind_eq_bind, bind_some, hQuiet]
  exact congrArg (fun ls => some (File.mk ls (next + 1))) hPlace

/- An opened file has the lines of the mapped one. -/
theorem fileOpen_spec {parent : Parent} (hQuiet : parent.Quiet) (lines : List (List Byte × Nat))
    (hMapped : ∀ line ∈ lines, Mapped line) :
    ∃ file, fileOpen parent lines = some file ∧ Good file ∧
      file.texts = lines.map fun line => line.1.take line.2 := by
  have hFold : ∀ file : File, Good file →
      (∀ line ∈ lines, Mapped line) →
      ∃ file', lines.foldlM (fun file line =>
          insertData parent file line.1 line.2
            (file.lines.length + 1) true) file = some file' ∧
        Good file' ∧ file'.texts = file.texts ++ lines.map fun line => line.1.take line.2 := by
    clear hMapped
    induction lines with
    | nil =>
      intro file hGood _
      exact ⟨file, rfl, hGood, (append_nil _).symm⟩
    | cons line lines ih =>
      intro file hGood hMapped
      rw [forall_mem_cons] at hMapped
      rcases insertMapped_spec hQuiet hGood hMapped.1 with ⟨file₁, hInsert, hGood₁, hTexts₁⟩
      rcases ih file₁ hGood₁ hMapped.2 with ⟨file', hRest, hGood', hTexts'⟩
      refine ⟨file', ?_, hGood', ?_⟩
      · rw [foldlM_cons, hInsert]
        exact hRest
      · rw [hTexts', hTexts₁, append_assoc]
        rfl
  have hNew : Good ⟨[], 0⟩ := ⟨fun _ hMem => absurd hMem not_mem_nil, trivial, nodup_nil,
    fun _ hMem => absurd hMem not_mem_nil⟩
  exact hFold ⟨[], 0⟩ hNew hMapped

/- The lines of a file are these texts, numbered from 1 on. -/
structure Correct (file : File) (texts : List (List Byte)) : Prop where
  lines :
    file.lines.map (fun line => (line.bytes, line.length)) =
      texts.map fun t => (t, t.length)
  numbers :
    file.lines.map Line.number = List.range' 1 texts.length

theorem Good.correct {file : File} (hGood : Good file) : Correct file file.texts := by
  constructor
  · unfold File.texts
    rw [List.map_map]
    apply map_congr_left
    intro line hMem
    dsimp only [Function.comp_apply]
    rw [(hGood.ok line hMem).length]
  · unfold File.texts
    rw [hGood.numbered.map_number, length_map]

end Efl.Elementary.Code
