import Efl.Lib.Terminators
import Efl.Lib.CInt

/-
  Where the lines of a text end.

  A length is `unsigned int`, a position `int`.  A sum of
  positions that overflows, or a step behind the text, is
  `none`.

  Main declarations:
    * `strnpos`, `newlinenpos`
    * `split`
    * `newlinenpos_row`
    * `split_iff`
-/

---
-- The Search
---

namespace Efl.Elementary.Code.Newlines

open Bytes List Option Terminators

/- The loop of `elm_code_text_strnpos` -/
def strnposLoop (search : List Byte) : Nat → Nat → List Byte → Option Nat
  | 0, _, _ => none
  | n + 1, c, ptr =>
    if search.isPrefixOf ptr then some c
    else strnposLoop search n (c + 1) (ptr.drop 1)

/- `elm_code_text_strnpos`, where `none` is `NOT_FOUND` -/
def strnpos (content : List Byte) (length : Nat)
    (search : List Byte) (offset : Nat) : Option Nat :=
  if length < search.length then
    none
  else
    strnposLoop search (length - search.length + 1 - offset)
      offset (content.drop offset)

/- `elm_code_text_newlinenpos`: the position, and `nllen` -/
def newlinenpos (text : List Byte) (length : Nat) : Option (Option (Nat × Nat)) :=
  match strnpos text length [lf] 0 with
  | none =>
    some ((strnpos text length [cr] 0).map fun crpos => (crpos, 1))
  | some lfpos =>
    if (lfpos : Int) = CInt.intMax then
      none
    else
      match strnpos text (lfpos + 1) [cr] 0 with
      | none => some (some (lfpos, 1))
      | some crpos =>
        if CInt.wrap lfpos < CInt.wrap crpos then
          some (some (lfpos, 2))
        else
          some (some (crpos, 2))

/-
  What is split off while there are new lines, with what is
  skipped; then what is left
-/
def splitLoop : Nat → List Byte → Option (List Row × List Byte)
  | 0, _ => none
  | n + 1, text => do
    match ← newlinenpos text text.length with
    | none => some ([], text)
    | some (pos, nllen) =>
      if text.length < pos + nllen then
        none
      else do
        let (rows, last) ← splitLoop n (text.drop (pos + nllen))
        some ((text.take pos, (text.drop pos).take nllen) :: rows,
          last)

def split (text : List Byte) : Option (List Row × List Byte) :=
  splitLoop (text.length + 1) text

/-
  No line feed is behind a carriage return that is alone, and
  the line feed of a terminator has a position below `INT_MAX`
  or its line is as long as `2 ^ 31` already.
-/
def Tidy : List Row → Prop
  | [] => True
  | (line, t) :: rows =>
    (if t = [cr] then ∀ r ∈ rows, lf ∉ r.2
      else line.length + t.length < 2 ^ 31 ∨
        2 ^ 31 ≤ line.length) ∧
      Tidy rows

---
-- Positions
---

variable {line t m : List Byte}

theorem strnposLoop_eq (b : Byte) (n c : Nat) (ptr : List Byte) :
    strnposLoop [b] n c ptr = ((ptr.take n).findIdx? (· = b)).map (· + c) := by
  induction n generalizing c ptr with
  | zero => rfl
  | succ n ih =>
    cases ptr with
    | nil =>
      rw [strnposLoop, if_neg (by simp), drop_nil, ih]
      simp
    | cons d ptr =>
      rw [strnposLoop, drop_one, tail_cons, ih, take_succ_cons, findIdx?_cons]
      by_cases hHere : d = b
      · subst hHere
        simp
      · rw [if_neg (by simpa using Ne.symm hHere),
          decide_eq_false hHere, if_neg Bool.false_ne_true, Option.map_map]
        congr 1
        funext k
        exact (Nat.add_right_comm k 1 c).symm

theorem strnpos_eq (content : List Byte) (length : Nat) (b : Byte) :
    strnpos content length [b] 0 = (content.take length).findIdx? (· = b) := by
  unfold strnpos
  cases length with
  | zero => rfl
  | succ n =>
    rw [if_neg (by simp), strnposLoop_eq, drop_zero]
    simp

theorem findIdx?_line {b : Byte} (hBreak : isBreak b = true)
    (hLine : ∀ c ∈ line, isBreak c = false) (l : List Byte) :
    (line ++ l).findIdx? (· = b) = (l.findIdx? (· = b)).map (· + line.length) := by
  have hNone : line.findIdx? (· = b) = none := by
    rw [findIdx?_eq_none_iff]
    intro c hMem
    refine decide_eq_false ?_
    rintro rfl
    exact nomatch hBreak.symm.trans (hLine c hMem)
  rw [findIdx?_append, hNone, none_or]

theorem newlinenpos_last (hLine : ∀ c ∈ line, isBreak c = false) :
    newlinenpos line line.length = some none := by
  have hCr := findIdx?_line (b := cr) rfl hLine []
  have hLf := findIdx?_line (b := lf) rfl hLine []
  rw [append_nil] at hCr hLf
  unfold newlinenpos
  rw [strnpos_eq, strnpos_eq, take_length, hLf, hCr]
  rfl

/- When the position and the length are those of the row -/
def Fits (line t m : List Byte) : Prop :=
  if t = [cr] then lf ∉ m
  else line.length + t.length < 2 ^ 31 ∨ 2 ^ 31 ≤ line.length

theorem newlinenpos_row (hLine : ∀ c ∈ line, isBreak c = false) (hEnd : Terminator m t)
    (hLength : (line ++ (t ++ m)).length < 2 ^ 32) :
    newlinenpos (line ++ (t ++ m)) (line ++ (t ++ m)).length =
        some (some (line.length, t.length)) ↔ Fits line t m := by
  have hMax : CInt.intMax = 2147483647 := rfl
  have hAt := fun b hBreak l => findIdx?_line (b := b) hBreak hLine l
  rw [length_append, length_append] at hLength
  unfold newlinenpos
  simp only [strnpos_eq, take_length, hAt lf rfl, hAt cr rfl]
  cases hEnd with
  | lineFeed =>
    have hTake : (line ++ ([lf] ++ m)).take (0 + line.length + 1) = line ++ [lf] := by
      rw [Nat.zero_add, take_append, take_of_length_le (by omega)]
      simp
    rw [Fits, if_neg (by decide)]
    simp only [singleton_append, findIdx?_cons, decide_true, if_true, Option.map_some] at hTake ⊢
    rw [hTake, hAt cr rfl]
    simp only [length_singleton]
    split
    · simp; omega
    · simp [lf, cr]; omega
  | both =>
    have hTake : (line ++ ([cr, lf] ++ m)).take (1 + line.length + 1) = line ++ [cr, lf] := by
      rw [take_append, take_of_length_le (by omega),
        show 1 + line.length + 1 - line.length = 2 by omega]
      rfl
    rw [Fits, if_neg (by decide)]
    simp only [cons_append, nil_append, findIdx?_cons, decide_true,
      if_true, Option.map_some, show decide (cr = lf) = false from rfl,
      Bool.false_eq_true, if_false, Nat.zero_add] at hTake ⊢
    rw [hTake, hAt cr rfl]
    simp only [length_cons, length_nil, findIdx?_cons, decide_true,
      if_true, Option.map_some, Nat.zero_add] at hLength ⊢
    unfold CInt.wrap
    split
    · simp; omega
    · split
      · simp; omega
      · simp; omega
  | carriageReturn hAlone =>
    rw [Fits, if_pos rfl]
    simp only [singleton_append, findIdx?_cons, decide_true, if_true,
      Option.map_some, show decide (cr = lf) = false from rfl,
      Bool.false_eq_true, if_false, Nat.zero_add]
    cases hFound : m.findIdx? (fun c => decide (c = lf)) with
    | none =>
      have hNone : lf ∉ m := by
        intro hMem
        exact absurd (findIdx?_eq_none_iff.mp hFound lf hMem) (by simp)
      simpa using hNone
    | some k =>
      have hMem : lf ∈ m := by
        by_contra hNone
        have hOther : m.findIdx? (fun c => decide (c = lf)) = none :=
          findIdx?_eq_none_iff.mpr fun c hMem =>
            decide_eq_false fun hSame => hNone (hSame ▸ hMem)
        exact nomatch hFound.symm.trans hOther
      simp only [Option.map_some]
      split
      · simpa using hMem
      · split
        · simpa using hMem
        · split <;> simpa using hMem

---
-- Splitting
---

theorem lf_notMem_rows (m : List Byte) : lf ∉ m ↔ ∀ r ∈ (rows m).1, lf ∉ r.2 := by
  have hPart : ∀ line : List Byte, (∀ c ∈ line, isBreak c = false) →
      lf ∉ line := fun line hLine hMem => nomatch hLine lf hMem
  induction m using rows_induction with
  | last line hLine =>
    rw [rows_last hLine]
    exact ⟨fun _ r hMem => absurd hMem not_mem_nil, fun _ => hPart line hLine⟩
  | row line t m hLine hEnd ih =>
    replace ih : lf ∉ m ↔ ∀ r ∈ (rows m).1, lf ∉ r.2 := ih
    rw [rows_line hLine hEnd, forall_mem_cons, ← ih, mem_append, mem_append, not_or, not_or]
    exact ⟨And.right, fun hBoth => ⟨hPart line hLine, hBoth⟩⟩

theorem tidy_row (line t m : List Byte) :
    Tidy ((line, t) :: (rows m).1) ↔ Fits line t m ∧ Tidy (rows m).1 := by
  rw [Tidy, Fits, lf_notMem_rows]

/-
  A text is split at its terminators exactly if it is tidy.
-/
theorem split_iff (text : List Byte)
    (hLength : text.length < 2 ^ 32) :
    split text = some (rows text) ↔ Tidy (rows text).1 := by
  unfold split
  generalize hFuel : text.length + 1 = n
  replace hFuel : text.length < n := by omega
  induction text using rows_induction generalizing n with
  | last line hLine =>
    obtain ⟨n, rfl⟩ := Nat.exists_eq_succ_of_ne_zero (by omega : n ≠ 0)
    rw [splitLoop, newlinenpos_last hLine, rows_last hLine]
    simp [Tidy]
  | row line t m hLine hEnd ih =>
    obtain ⟨n, rfl⟩ := Nat.exists_eq_succ_of_ne_zero (by omega : n ≠ 0)
    have hRow := newlinenpos_row hLine hEnd hLength
    have hPos : 0 < t.length := by
      cases hEnd <;> exact Nat.succ_pos _
    have hWhole : (line ++ (t ++ m)).length =
        line.length + (t.length + m.length) := by
      rw [length_append, length_append]
    have hRest : splitLoop n m = some (rows m) ↔
        Tidy (rows m).1 := ih (by omega) n (by omega)
    rw [rows_line hLine hEnd, tidy_row, ← hRow, ← hRest]
    have hDrop : (line ++ (t ++ m)).drop (line.length + t.length) =
        m := by
      rw [← append_assoc, ← length_append, drop_left]
    constructor
    · intro hSplit
      rw [splitLoop, bind_eq_bind, Option.bind_eq_some_iff] at hSplit
      rcases hSplit with ⟨found, hFound, hSplit⟩
      cases found with
      | none => exact nomatch (Prod.mk.inj (some.inj hSplit)).1
      | some found =>
        rcases found with ⟨pos, nllen⟩
        dsimp only at hSplit
        split at hSplit
        case isTrue => exact nomatch hSplit
        case isFalse hInside =>
          rw [bind_eq_bind, Option.bind_eq_some_iff] at hSplit
          rcases hSplit with ⟨⟨after, last⟩, hAfter, hSplit⟩
          obtain ⟨hRows, rfl⟩ := Prod.mk.inj (some.inj hSplit)
          obtain ⟨hFirst, rfl⟩ := List.cons.inj hRows
          obtain ⟨hTake, hSkip⟩ := Prod.mk.inj hFirst
          have hAt := congrArg List.length hTake
          have hOver := congrArg List.length hSkip
          rw [length_take] at hAt hOver
          rw [length_drop] at hOver
          obtain rfl : pos = line.length := by omega
          obtain rfl : nllen = t.length := by omega
          rw [hDrop] at hAfter
          exact ⟨hFound, hAfter⟩
    · rintro ⟨hFound, hAfter⟩
      rw [splitLoop, hFound, bind_eq_bind, Option.bind_some]
      dsimp only
      rw [if_neg (by omega), hDrop, hAfter, take_left, drop_left,
        take_left]
      rfl

theorem split_iff_sample :
    split [0x61, cr, lf, 0x62] = some (rows [0x61, cr, lf, 0x62]) ↔
      Tidy (rows [0x61, cr, lf, 0x62]).1 :=
  split_iff _ (by decide)

/-
  Where the carriage return and the line feed are apart, the
  byte between them is skipped.
-/
theorem split_skips_byte :
    split [0x61, cr, 0x62, lf, 0x63] =
        some ([([0x61], [cr, 0x62]), ([], [lf])], [0x63]) ∧
      split [0x61, cr, 0x62, lf, 0x63] ≠
        some (rows [0x61, cr, 0x62, lf, 0x63]) := by
  decide

end Efl.Elementary.Code.Newlines
