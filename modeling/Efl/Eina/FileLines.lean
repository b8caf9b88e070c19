import Efl.Lib.Bytes

/-
  The lines of a mapped file.

  The iterator tells a line by a break, which is `\r` or
  `\n`, and takes two different breaks for one.  Whichever it
  takes for one, the lines that are not empty are the parts
  between breaks.

  Main declarations:
    * `findEol`
    * `Iterator`, `Iterator.next`
    * `findEol_eq`
    * `filter_mapLines`
-/

---
-- The Iterator
---

namespace Efl.Eina.FileLines

open Bytes List

def carriageReturn : Byte := 0x0d

def lineFeed : Byte := 0x0a

def isBreak (c : Byte) : Bool :=
  c = lineFeed ∨ c = carriageReturn

/- What `memchr` finds, as a distance -/
def memchr (m : List Byte) (c : Byte) : Option Nat :=
  m.findIdx? (· = c)

/-
  `_eina_find_eol`, as a distance from the start; chunk by
  chunk, in at most `n` rounds.
-/
def findEol : Nat → Nat → List Byte → Nat
  | 0, _, m => m.length
  | n + 1, boundary, m =>
    let chunk := if boundary < m.length then boundary
      else m.length
    let cr := memchr (m.take chunk) carriageReturn
    let lf := memchr (m.take chunk) lineFeed
    match cr, lf with
    | some cr, some lf => if lf < cr then lf else cr
    | some cr, none => cr
    | none, some lf => lf
    | none, none => chunk + findEol n 4096 (m.drop chunk)

/-
  `Eina_Lines_Iterator`: `rest` is what is in the file from
  `current.end` on, `address` where it is.
-/
structure Iterator where
  index : Nat
  address : Nat
  boundary : Nat
  rest : List Byte

/- The loop over breaks; it stops at the one to match. -/
def skipBreaks (c : Byte) : List Byte → List Byte
  | [] => []
  | b :: bs =>
    if isBreak b then
      if c = b then b :: bs else skipBreaks c bs
    else
      b :: bs

/- `_eina_file_map_lines_iterator_next` -/
def Iterator.next (it : Iterator) : Option (List Byte × Iterator) :=
  match it.rest with
  | [] => none
  | c :: cs =>
    let rest := skipBreaks c
      (if 0 < it.index then cs else c :: cs)
    if rest = [] then
      none
    else
      let n := findEol rest.length it.boundary rest
      let address := it.address +
        (it.rest.length - rest.length) + n
      let boundary := address &&& 0x3ff
      some (rest.take n,
        { index := it.index + 1
          address := address
          boundary := if boundary = 0 then 4096 else boundary
          rest := rest.drop n })

/- The lines of at most `n` rounds -/
def linesFrom : Nat → Iterator → List (List Byte)
  | 0, _ => []
  | n + 1, it =>
    match it.next with
    | none => []
    | some (line, it) => line :: linesFrom n it

/-
  `eina_file_map_lines` of a file that is mapped at `address`;
  there is no iterator for a file without bytes.
-/
def mapLines (address : Nat) (file : List Byte) : Option (List (List Byte)) :=
  if file.length = 0 then
    none
  else
    some (linesFrom (file.length + 1) ⟨0, address, 4096, file⟩)

---
-- The Ends of Lines
---

/- The first of two kinds is the first of both. -/
theorem findIdx_or {m : List Byte} {p q : Byte → Bool} :
    m.findIdx (fun c => p c || q c) = min (m.findIdx p) (m.findIdx q) := by
  induction m with
  | nil => rfl
  | cons c m ih =>
    rw [findIdx_cons, findIdx_cons, findIdx_cons, ih]
    cases p c <;> cases q c <;> simp [Nat.succ_min_succ]

theorem isBreak_eq :
    isBreak = fun c => decide (c = carriageReturn) ||
      decide (c = lineFeed) := by
  funext c
  unfold isBreak
  rw [Bool.decide_or, Bool.or_comm]

/- The chunks do not matter. -/
theorem findEol_eq (n boundary : Nat) (m : List Byte)
    (hBoundary : 0 < boundary) (hRounds : m.length ≤ n) :
    findEol n boundary m = m.findIdx isBreak := by
  induction n generalizing boundary m with
  | zero =>
    obtain rfl := length_eq_zero_iff.mp (Nat.le_zero.mp hRounds)
    rfl
  | succ n ih =>
    unfold findEol
    dsimp only
    obtain ⟨chunk, hChunk, hLe, hPos⟩ :
        ∃ chunk, (if boundary < m.length then boundary
            else m.length) = chunk ∧
          chunk ≤ m.length ∧ (m ≠ [] → 0 < chunk) := by
      refine ⟨_, rfl, ?_, ?_⟩
      · split <;> omega
      · intro hNe
        have hLength := length_pos_iff.mpr hNe
        split <;> omega
    rw [hChunk]
    have hLength : (m.take chunk).length = chunk := by
      rw [length_take, Nat.min_eq_left hLe]
    have hWhole : m.findIdx isBreak =
        if (m.take chunk).findIdx isBreak < chunk then
          (m.take chunk).findIdx isBreak
        else
          (m.drop chunk).findIdx isBreak + chunk := by
      conv_lhs => rw [← take_append_drop chunk m]
      rw [findIdx_append, hLength]
    rw [hWhole, isBreak_eq, findIdx_or]
    unfold memchr
    cases hCr : (m.take chunk).findIdx? (fun c => decide (c = carriageReturn)) with
    | some cr =>
      rw [findIdx?_eq_some_iff_findIdx_eq] at hCr
      cases hLf : (m.take chunk).findIdx? (fun c => decide (c = lineFeed)) with
      | some lf =>
        rw [findIdx?_eq_some_iff_findIdx_eq] at hLf
        rw [hCr.2, hLf.2, if_pos (by omega)]
        dsimp only
        split <;> omega
      | none =>
        rw [findIdx?_eq_none_iff_findIdx_eq] at hLf
        rw [hCr.2, hLf, hLength, if_pos (by omega)]
        dsimp only
        omega
    | none =>
      rw [findIdx?_eq_none_iff_findIdx_eq] at hCr
      cases hLf : (m.take chunk).findIdx? (fun c => decide (c = lineFeed)) with
      | some lf =>
        rw [findIdx?_eq_some_iff_findIdx_eq] at hLf
        rw [hCr, hLf.2, hLength, if_pos (by omega)]
        dsimp only
        omega
      | none =>
        rw [findIdx?_eq_none_iff_findIdx_eq] at hLf
        have hRest : (m.drop chunk).length ≤ n := by
          rw [length_drop]
          by_cases hNil : m = []
          · rw [hNil, length_nil]
            omega
          · have hChunkPos := hPos hNil
            omega
        rw [hCr, hLf, hLength, if_neg (by omega)]
        dsimp only
        rw [ih 4096 _ (by decide) hRest, isBreak_eq, Nat.add_comm]

---
-- The Parts Between Breaks
---

/- The parts between breaks that are not empty -/
def segments (m : List Byte) : List (List Byte) :=
  (m.splitOnP isBreak).filter (· ≠ [])

@[simp] theorem segments_nil : segments [] = [] := rfl

theorem segments_break {c : Byte} (m : List Byte)
    (hBreak : isBreak c = true) : segments (c :: m) = segments m := by
  unfold segments
  rw [splitOnP_cons_eq_if_modifyHead, if_pos hBreak]
  rfl

theorem segments_append (l m : List Byte) {c : Byte}
    (hBreak : isBreak c = true) : segments (l ++ c :: m) = segments l ++ segments m := by
  unfold segments
  rw [splitOnP_append_cons l m hBreak, filter_append]

theorem segments_of_noBreak {l : List Byte}
    (hNone : ∀ c ∈ l, isBreak c = false) : segments l = [l].filter (· ≠ []) := by
  unfold segments
  rw [splitOnP_eq_singleton hNone]

theorem segments_skipBreaks (c : Byte) (m : List Byte) :
    segments (skipBreaks c m) = segments m := by
  induction m with
  | nil => rfl
  | cons b m ih =>
    rw [skipBreaks]
    split
    case isTrue hBreak =>
      split
      case isTrue => rfl
      case isFalse => rw [ih, segments_break m hBreak]
    case isFalse => rfl

theorem length_skipBreaks_le (c : Byte) (m : List Byte) : (skipBreaks c m).length ≤ m.length := by
  induction m with
  | nil => exact Nat.le_refl _
  | cons b m ih =>
    rw [skipBreaks]
    split
    · split
      · exact Nat.le_refl _
      · rw [length_cons]
        omega
    · exact Nat.le_refl _

/- A part has no break, and what follows it starts with one. -/
theorem take_findIdx (m : List Byte) :
    (∀ c ∈ m.take (m.findIdx isBreak), isBreak c = false) ∧
      (m.drop (m.findIdx isBreak) = [] ∨ ∃ c rest,
      m.drop (m.findIdx isBreak) = c :: rest ∧ isBreak c = true) := by
  induction m with
  | nil => exact ⟨fun _ hMem => absurd hMem not_mem_nil, Or.inl rfl⟩
  | cons b m ih =>
    rw [findIdx_cons]
    cases hBreak : isBreak b with
    | true =>
      exact ⟨fun _ hMem => absurd hMem not_mem_nil, Or.inr ⟨b, m, rfl, hBreak⟩⟩
    | false =>
      refine ⟨?_, ih.2⟩
      intro c hMem
      rcases mem_cons.mp hMem with rfl | hMem
      · exact hBreak
      · exact ih.1 c hMem

theorem length_le_of_mem_segments {l m : List Byte}
    (hMem : l ∈ segments m) : l.length ≤ m.length := by
  induction hLength : m.length using Nat.strong_induction_on generalizing m with
  | _ n ih =>
    subst hLength
    have hParts := take_findIdx m
    have hWhole := take_append_drop (m.findIdx isBreak) m
    rcases hParts.2 with hNil | ⟨c, rest, hCons, hBreak⟩
    · rw [hNil, append_nil] at hWhole
      rw [hWhole] at hParts
      rw [segments_of_noBreak hParts.1, mem_filter, mem_singleton] at hMem
      rw [hMem.1]
    · have hTotal := congrArg List.length hWhole
      rw [hCons] at hWhole hTotal
      rw [length_append, length_cons] at hTotal
      rw [← hWhole, segments_append _ _ hBreak, mem_append] at hMem
      rcases hMem with hFirst | hLater
      · rw [segments_of_noBreak hParts.1, mem_filter, mem_singleton] at hFirst
        rw [hFirst.1]
        omega
      · have hLe := ih rest.length (by omega) hLater rfl
        omega

/- Where the iterator may be: before a line, or at a break -/
structure Ready (it : Iterator) : Prop where
  boundary : 0 < it.boundary
  atBreak :
    0 < it.index →
      it.rest = [] ∨
        ∃ c rest, it.rest = c :: rest ∧ isBreak c = true

/- One round gives a line, and goes on. -/
theorem next_spec {it it' : Iterator} {line : List Byte}
    (hReady : Ready it) (hNext : it.next = some (line, it')) :
    Ready it' ∧ 0 < it'.index ∧
      it'.rest.length + (if it.index = 0 then 0 else 1) ≤
        it.rest.length ∧
      segments it.rest = [line].filter (· ≠ []) ++ segments it'.rest := by
  unfold Iterator.next at hNext
  cases hRest : it.rest with
  | nil =>
    rw [hRest] at hNext
    exact nomatch hNext
  | cons c cs =>
    rw [hRest] at hNext
    dsimp only at hNext
    obtain ⟨m, hM, hSegments, hShorter⟩ : ∃ m,
            skipBreaks c (if 0 < it.index then cs else c :: cs) = m ∧
            segments m = segments (c :: cs) ∧ m.length +
            (if it.index = 0 then 0 else 1) ≤ (c :: cs).length := by
      refine ⟨_, rfl, ?_, ?_⟩
      · rw [segments_skipBreaks]
        split
        case isTrue hLater =>
          rcases hReady.atBreak hLater with hNil | ⟨b, bs, hCons, hBreak⟩
          · rw [hRest] at hNil
            exact nomatch hNil
          · rw [hRest] at hCons
            obtain ⟨rfl, rfl⟩ := List.cons.inj hCons
            exact (segments_break cs hBreak).symm
        case isFalse => rfl
      · have hLe := length_skipBreaks_le c (if 0 < it.index then cs else c :: cs)
        rw [length_cons]
        by_cases hIndex : it.index = 0
        · rw [if_neg (by omega), length_cons] at hLe
          rw [if_neg (by omega), if_pos hIndex]
          exact hLe
        · rw [if_pos (by omega)] at hLe
          rw [if_pos (by omega), if_neg hIndex]
          omega
    rw [hM] at hNext
    split at hNext
    case isTrue => exact nomatch hNext
    case isFalse =>
      rw [findEol_eq _ _ _ hReady.boundary (Nat.le_refl _)] at hNext
      obtain ⟨hLine, hIt⟩ := Prod.mk.inj (Option.some.inj hNext)
      have hParts := take_findIdx m
      subst hLine
      subst hIt
      refine ⟨⟨?_, fun _ => hParts.2⟩, Nat.succ_pos _, ?_, ?_⟩
      · dsimp only
        split <;> omega
      · dsimp only
        rw [length_drop]
        omega
      · dsimp only
        rw [← hSegments]
        conv_lhs => rw [← take_append_drop (m.findIdx isBreak) m]
        rcases hParts.2 with hNil | ⟨b, bs, hCons, hBreak⟩
        · rw [hNil, append_nil, segments_nil, append_nil, segments_of_noBreak hParts.1]
        · rw [hCons, segments_append _ _ hBreak,
            segments_of_noBreak hParts.1, segments_break _ hBreak]

/- Without a line there is nothing left. -/
theorem next_none {it : Iterator} (hReady : Ready it)
    (hNone : it.next = none) : segments it.rest = [] := by
  unfold Iterator.next at hNone
  cases hRest : it.rest with
  | nil => rfl
  | cons c cs =>
    rw [hRest] at hNone
    dsimp only at hNone
    have hNil : skipBreaks c (if 0 < it.index then cs else c :: cs) = [] := by
      by_contra hSome
      rw [if_neg hSome] at hNone
      exact nomatch hNone
    have hSegments := segments_skipBreaks c (if 0 < it.index then cs else c :: cs)
    rw [hNil, segments_nil] at hSegments
    by_cases hLater : 0 < it.index
    · rw [if_pos hLater] at hSegments
      rcases hReady.atBreak hLater with hEmpty | ⟨b, bs, hCons, hBreak⟩
      · rw [hRest] at hEmpty
        exact nomatch hEmpty
      · rw [hRest] at hCons
        obtain ⟨rfl, rfl⟩ := List.cons.inj hCons
        rw [segments_break cs hBreak, ← hSegments]
    · rw [if_neg hLater] at hSegments
      exact hSegments.symm

theorem filter_linesFrom (n : Nat) (it : Iterator)
    (hReady : Ready it) (hRounds :
      it.rest.length + (if it.index = 0 then 1 else 0) ≤ n) :
    (linesFrom n it).filter (· ≠ []) = segments it.rest := by
  induction n generalizing it with
  | zero =>
    have hNil := length_eq_zero_iff.mp (show it.rest.length = 0 by omega)
    rw [hNil]
    rfl
  | succ n ih =>
    rw [linesFrom]
    cases hNext : it.next with
    | none => exact (next_none hReady hNext).symm
    | some p =>
      rcases p with ⟨line, it'⟩
      rcases next_spec hReady hNext with ⟨hReady', hIndex, hShorter, hSegments⟩
      have hRest := ih it' hReady' (by
        rw [if_neg (by omega)]
        split at hRounds <;> split at hShorter <;> omega)
      dsimp only
      rw [hSegments, ← hRest, ← filter_append]
      rfl

/- The lines with bytes are the parts between breaks. -/
theorem filter_mapLines (address : Nat) {file : List Byte}
    (hNonempty : file ≠ []) :
    ∃ lines, mapLines address file = some lines ∧ lines.filter (· ≠ []) = segments file := by
  refine ⟨_, if_neg (by simpa using hNonempty), ?_⟩
  exact filter_linesFrom _ _ ⟨show 0 < 4096 by decide, fun hLater =>
      absurd hLater (Nat.lt_irrefl 0)⟩ (Nat.le_refl _)

end Efl.Eina.FileLines
