import Efl.Lib.Bytes
import Mathlib.Data.List.TakeWhile

/-
  Texts as lines with their terminators.

  A terminator is CR LF, LF or CR, and a CR before an LF is
  never one alone.

  Main declarations:
    * `Row`, `Terminator`
    * `rows`
    * `rows_induction`
    * `rows_line`, `rows_last`
-/

---
-- Rows
---

namespace Efl.Terminators

open Bytes List

abbrev cr : Byte := 0x0d

abbrev lf : Byte := 0x0a

/- A line, and the terminator that ends it -/
abbrev Row := List Byte × List Byte

def isBreak (c : Byte) : Bool :=
  c = lf ∨ c = cr

/- What may end a line before the text `m` -/
inductive Terminator (m : List Byte) : List Byte → Prop
  | lineFeed : Terminator m [lf]
  | both : Terminator m [cr, lf]
  | carriageReturn (hAlone : m.head? ≠ some lf) : Terminator m [cr]

/- A byte in front of a text -/
def push (c : Byte) : List Row × List Byte → List Row × List Byte
  | ([], last) => ([], c :: last)
  | ((line, t) :: rows, last) => ((c :: line, t) :: rows, last)

/- The rows of a text, and what is behind the last of them -/
def rows : List Byte → List Row × List Byte
  | [] => ([], [])
  | [c] => if isBreak c then ([([], [c])], []) else ([], [c])
  | c :: d :: m =>
    if c = cr ∧ d = lf then
      (([], [c, d]) :: (rows m).1, (rows m).2)
    else if isBreak c then
      (([], [c]) :: (rows (d :: m)).1, (rows (d :: m)).2)
    else
      push c (rows (d :: m))

variable {line t m : List Byte}

theorem rows_push {c : Byte} (hPart : isBreak c = false)
    (m : List Byte) : rows (c :: m) = push c (rows m) := by
  have hReturn : c ≠ cr := by
    rintro rfl
    exact nomatch hPart
  cases m with
  | nil =>
    rw [rows.eq_2, hPart]
    rfl
  | cons d m =>
    rw [rows, if_neg (fun hBoth => hReturn hBoth.1), hPart, if_neg Bool.false_ne_true]

theorem rows_last (hLine : ∀ c ∈ line, isBreak c = false) : rows line = ([], line) := by
  induction line with
  | nil => rfl
  | cons c line ih =>
    rw [rows_push (hLine c mem_cons_self),
      ih (fun b hMem => hLine b (mem_cons_of_mem c hMem)), push]

theorem rows_line (hLine : ∀ c ∈ line, isBreak c = false)
    (hEnd : Terminator m t) : rows (line ++ (t ++ m)) = ((line, t) :: (rows m).1, (rows m).2) := by
  induction line with
  | nil =>
    cases hEnd with
    | lineFeed => cases m <;> rfl
    | both => rfl
    | carriageReturn hAlone =>
      cases m with
      | nil => rfl
      | cons d m =>
        have hOther : ¬ (cr = cr ∧ d = lf) := fun hBoth => hAlone (congrArg some hBoth.2)
        rw [nil_append, cons_append, nil_append, rows, if_neg hOther]
        rfl
  | cons c line ih =>
    rw [cons_append, rows_push (hLine c mem_cons_self),
      ih (fun b hMem => hLine b (mem_cons_of_mem c hMem)), push]

/- A break is the start of a terminator. -/
theorem exists_terminator {c : Byte} (m : List Byte)
    (hBreak : isBreak c = true) : ∃ t m', c :: m = t ++ m' ∧ t ≠ [] ∧ Terminator m' t := by
  rcases of_decide_eq_true hBreak with rfl | rfl
  · exact ⟨[lf], m, rfl, cons_ne_nil _ _, .lineFeed⟩
  · by_cases hBoth : m.head? = some lf
    · rcases head?_eq_some_iff.mp hBoth with ⟨m', rfl⟩
      exact ⟨[cr, lf], m', rfl, cons_ne_nil _ _, .both⟩
    · exact ⟨[cr], m, rfl, cons_ne_nil _ _, .carriageReturn hBoth⟩

/- A text is what is behind the last row, with rows before it. -/
theorem rows_induction {P : List Byte → Prop}
    (last : ∀ line, (∀ c ∈ line, isBreak c = false) → P line)
    (row : ∀ line t m, (∀ c ∈ line, isBreak c = false) →
      Terminator m t → P m → P (line ++ (t ++ m))) (text : List Byte) : P text := by
  induction hLength : text.length using Nat.strong_induction_on generalizing text with
  | _ n ih =>
    subst hLength
    have hLine : ∀ c ∈ text.takeWhile (fun b => !isBreak b), isBreak c = false := by
      intro c hMem
      have hPart := mem_takeWhile_imp hMem
      rwa [Bool.not_eq_true'] at hPart
    have hWhole := takeWhile_append_dropWhile (l := text) (p := fun b => !isBreak b)
    cases hRest : text.dropWhile (fun b => !isBreak b) with
    | nil =>
      rw [hRest, append_nil] at hWhole
      rw [hWhole] at hLine
      exact last text hLine
    | cons c m =>
      have hBreak : isBreak c = true := by
        have hHead := head?_dropWhile_not (fun b => !isBreak b) text
        rw [hRest] at hHead
        simpa using hHead
      rcases exists_terminator m hBreak with ⟨t, m', hSplit, hNonempty, hEnd⟩
      rw [hRest, hSplit] at hWhole
      have hTotal := congrArg List.length hWhole
      have hPos := length_pos_iff.mpr hNonempty
      rw [length_append, length_append] at hTotal
      rw [← hWhole]
      exact row _ t m' hLine hEnd (ih m'.length (by omega) m' rfl)

end Efl.Terminators
