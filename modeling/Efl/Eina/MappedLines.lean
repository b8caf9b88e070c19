import Efl.Eina.FileLines
import Efl.Lib.Block
import Efl.Lib.Terminators

/-
  The lines of a mapped file, with every read checked.

  A position is a distance from the start of the map, and a
  read outside of the map is `none`.  The lines of a file with
  LF and CR LF are compared with its rows.

  Main declarations:
    * `Lines`, `Lines.next`, `mapLines`
    * `kept`, `Lossless`
    * `next_spec`
    * `mapLines_iff`
-/

---
-- The Iterator
---

namespace Efl.Eina.MappedLines

open Bytes List Option Terminators

/- `_eina_find_eol` -/
def findEol (map : List Byte) : Nat → Nat → Nat → Option Nat
  | 0, _, _ => none
  | n + 1, boundary, start =>
    if start < map.length then do
      let chunk := if start + boundary < map.length then boundary
        else map.length - start
      let bytes ← Block.read map start chunk
      match FileLines.memchr bytes cr, FileLines.memchr bytes lf with
      | some cr, some lf => some (start + if lf < cr then lf else cr)
      | some cr, none => some (start + cr)
      | none, some lf => some (start + lf)
      | none, none => findEol map n 4096 (start + chunk)
    else
      some map.length

/- The loop over breaks; it stops at the one to match. -/
def skipBreaks (map : List Byte) (c : Byte) : Nat → Nat → Option Nat
  | 0, _ => none
  | n + 1, stop =>
    if stop < map.length then do
      let b ← map[stop]?
      if isBreak b ∧ c ≠ b then skipBreaks map c n (stop + 1)
      else some stop
    else
      some stop

/- `Eina_File_Line` -/
structure Line where
  start : Nat
  stop : Nat
  index : Nat
  length : Nat

/- What `Eina_Lines_Iterator` goes on from -/
structure Lines where
  stop : Nat
  index : Nat
  boundary : Nat

/-
  `_eina_file_map_lines_iterator_next` of a map at `address`;
  the inner `none` is the end.
-/
def Lines.next (address : Nat) (map : List Byte) (it : Lines) : Option (Option (Line × Lines)) :=
  if map.length ≤ it.stop then
    some none
  else do
    let c ← map[it.stop]?
    let start ← skipBreaks map c (map.length + 1)
      (if 0 < it.index then it.stop + 1 else it.stop)
    let index := (it.index + 1) % 2 ^ 32
    if start = map.length then
      some none
    else do
      let eol ← findEol map (map.length + 1) it.boundary start
      let boundary := (address + eol) &&& 0x3ff
      some (some (⟨start, eol, index, eol - start⟩,
        ⟨eol, index, if boundary = 0 then 4096 else boundary⟩))

/- The text and the index of each line, in at most `n` rounds -/
def linesFrom (address : Nat) (map : List Byte) : Nat → Lines → Option (List (List Byte × Nat))
  | 0, _ => none
  | n + 1, it => do
    match ← it.next address map with
    | none => some []
    | some (line, it) => do
      let text ← Block.read map line.start line.length
      let lines ← linesFrom address map n it
      some ((text, line.index) :: lines)

/- `eina_file_map_lines`, and what its iterator gives -/
def mapLines (address : Nat) (map : List Byte) : Option (List (List Byte × Nat)) :=
  if map.length = 0 then some []
  else linesFrom address map (2 * map.length + 2) ⟨0, 0, 4096⟩

---
-- One Round
---

variable {map m : List Byte} {n : Nat} {it : Lines} (address : Nat)

theorem findEol_spec {boundary : Nat} (map : List Byte) (n start : Nat) (hBoundary : 0 < boundary)
    (hStart : start ≤ map.length) (hRounds : map.length - start < n) :
    findEol map n boundary start = some (start + (map.drop start).findIdx isBreak) := by
  induction n generalizing boundary start with
  | zero => exact absurd hRounds (Nat.not_lt_zero _)
  | succ n ih =>
    rw [findEol]
    split
    case isTrue hInside =>
      have hEol := FileLines.findEol_eq (n + 1) boundary
        (map.drop start) hBoundary (by rw [length_drop]; omega)
      change _ = (map.drop start).findIdx isBreak at hEol
      rw [← hEol, FileLines.findEol, length_drop]
      dsimp only
      obtain ⟨chunk, hChunk, hLe, hPos⟩ : ∃ chunk, (if start + boundary < map.length then boundary
        else map.length - start) = chunk ∧ start + chunk ≤ map.length ∧ 0 < chunk := by
        refine ⟨_, rfl, ?_⟩
        split <;> omega
      have hSame : (if boundary < map.length - start then boundary
          else map.length - start) = chunk := by
        rw [← hChunk]
        split <;> split <;> omega
      have hRead : Block.read map start chunk =
          some ((map.drop start).take chunk) := if_pos hLe
      rw [hChunk, hSame, hRead, bind_eq_bind, Option.bind_some]
      unfold FileLines.carriageReturn FileLines.lineFeed
      cases FileLines.memchr ((map.drop start).take chunk) cr with
      | some => cases FileLines.memchr _ lf <;> rfl
      | none =>
        cases FileLines.memchr ((map.drop start).take chunk) lf with
        | some => rfl
        | none =>
          dsimp only
          rw [ih _ (by decide) hLe (by omega), FileLines.findEol_eq _ _ _ (by decide)
            (by simp only [length_drop]; omega), drop_drop, Nat.add_assoc]
          rfl
    case isFalse hEnd =>
      rw [drop_eq_nil_of_le (by omega)]
      exact congrArg some (by rw [findIdx_nil]; omega)

theorem getElem?_suffix {c : Byte} (hSuffix : c :: m <:+ map) :
    map[map.length - (c :: m).length]? = some c := by
  rcases hSuffix with ⟨before, rfl⟩
  rw [length_append, Nat.add_sub_cancel, getElem?_append_right (Nat.le_refl _), Nat.sub_self]
  rfl

theorem drop_of_suffix (hSuffix : m <:+ map) : map.drop (map.length - m.length) = m := by
  rcases hSuffix with ⟨before, rfl⟩
  rw [length_append, Nat.add_sub_cancel, drop_left]

/- Where the loop over breaks stops -/
theorem skipBreaks_spec (c : Byte) (hSuffix : m <:+ map)
    (hRounds : m.length < n) :
    skipBreaks map c n (map.length - m.length) =
      some (map.length - (FileLines.skipBreaks c m).length) := by
  induction n generalizing m with
  | zero => exact absurd hRounds (Nat.not_lt_zero _)
  | succ n ih =>
    have hLe := hSuffix.length_le
    rw [skipBreaks]
    cases m with
    | nil =>
      rw [if_neg (by rw [length_nil]; omega)]
      rfl
    | cons b m =>
      rw [length_cons] at hRounds hLe
      rw [if_pos (by rw [length_cons]; omega), getElem?_suffix hSuffix,
        bind_eq_bind, Option.bind_some, FileLines.skipBreaks]
      by_cases hBreak : isBreak b = true
      · by_cases hSame : c = b
        · rw [if_neg (fun hBoth => hBoth.2 hSame),
            if_pos (show FileLines.isBreak b = true from hBreak), if_pos hSame]
        · rw [if_pos ⟨hBreak, hSame⟩,
            if_pos (show FileLines.isBreak b = true from hBreak), if_neg hSame,
            ← ih ((suffix_cons b m).trans hSuffix) (by omega), length_cons]
          congr 1
          omega
      · rw [if_neg (fun hBoth => hBreak hBoth.1),
          if_neg (show ¬ FileLines.isBreak b = true from hBreak)]

theorem skipBreaks_suffix (c : Byte) (m : List Byte) : FileLines.skipBreaks c m <:+ m := by
  induction m with
  | nil => exact suffix_refl _
  | cons b m ih =>
    rw [FileLines.skipBreaks]
    split
    · split
      · exact suffix_refl _
      · exact ih.trans (suffix_cons b m)
    · exact suffix_refl _

/- The iterator is at the text `m` of the map. -/
structure At (map : List Byte) (it : Lines) (m : List Byte) : Prop where
  suffix : m <:+ map
  stop : it.stop = map.length - m.length
  boundary : 0 < it.boundary

theorem next_end (hAt : At map it []) : it.next address map = some none := if_pos hAt.stop.ge

/- What a round gives, and where it leaves the iterator -/
structure Gives (map rest : List Byte) (it it' : Lines) (line : Line) : Prop where
  text : Block.read map line.start line.length =
    some (rest.take (rest.findIdx isBreak))
  index : line.index = (it.index + 1) % 2 ^ 32
  next : it'.index = line.index
  atRest : At map it' (rest.drop (rest.findIdx isBreak))

/- One round, from where the loop over breaks stops -/
theorem next_spec {c : Byte} {rest : List Byte}
    (hAt : At map it (c :: m)) (hRest : FileLines.skipBreaks c
      (if 0 < it.index then m else c :: m) = rest) :
    (rest = [] → it.next address map = some none) ∧
      (rest ≠ [] → ∃ line it', Gives map rest it it' line ∧
        it.next address map = some (some (line, it'))) := by
  rcases hAt with ⟨hSuffix, hStop, hBoundary⟩
  have hLe := hSuffix.length_le
  rw [length_cons] at hLe
  have hText : (if 0 < it.index then m else c :: m) <:+ map := by
    split
    · exact (suffix_cons c m).trans hSuffix
    · exact hSuffix
  have hFrom : (if 0 < it.index then it.stop + 1 else it.stop) =
      map.length - (if 0 < it.index then m else c :: m).length := by
    split
    · rw [hStop, length_cons]
      omega
    · rw [hStop]
  have hHead : map[it.stop]? = some c := hStop ▸ getElem?_suffix hSuffix
  have hSkip := skipBreaks_spec (n := map.length + 1) c hText (Nat.lt_succ_of_le hText.length_le)
  have hInside : rest <:+ map := hRest ▸ (skipBreaks_suffix c _).trans hText
  have hInsideLe := hInside.length_le
  have hEol := findEol_spec map (map.length + 1)
    (map.length - rest.length) hBoundary (by omega) (by omega)
  rw [drop_of_suffix hInside] at hEol
  unfold Lines.next
  rw [if_neg (by rw [hStop, length_cons]; omega), hHead]
  simp only [bind_eq_bind, Option.bind_some]
  rw [hFrom, hSkip, hRest, Option.bind_some]
  constructor
  · rintro rfl
    exact if_pos rfl
  · intro hSome
    have hPos := length_pos_iff.mpr hSome
    have hFind : rest.findIdx isBreak ≤ rest.length := findIdx_le_length
    rw [if_neg (by omega), hEol]
    refine ⟨_, _, ⟨?_, rfl, rfl, ?_, ?_, ?_⟩, rfl⟩
    · dsimp only
      rw [Nat.add_sub_cancel_left, Block.read, if_pos (by omega), drop_of_suffix hInside]
    · exact (drop_suffix _ _).trans hInside
    · dsimp only
      rw [length_drop]
      omega
    · dsimp only
      split <;> omega

---
-- Rows
---

/-
  The rows whose lines are given.  In a run of empty lines the
  iterator looks for the break that the run started with.
-/
def kept : Bool → List Row → List Row
  | _, [] => []
  | returned, (line, t) :: rows =>
    if line = [] then
      if returned ∧ t = [lf] then kept returned rows
      else (line, t) :: kept returned rows
    else
      (line, t) :: kept (t ≠ [lf]) rows

/- No LF ends an empty line of a run that CR LF starts. -/
def Lossless : Bool → List Row → Prop
  | _, [] => True
  | returned, (line, t) :: rows =>
    if line = [] then
      ¬ (returned ∧ t = [lf]) ∧ Lossless returned rows
    else
      Lossless (t ≠ [lf]) rows

/- The first line starts a run, even if it is empty. -/
def LosslessFile : List Row → Prop
  | [] => True
  | (_, t) :: rows => Lossless (t ≠ [lf]) rows

/- The lines of rows, and a last one without a terminator -/
def texts (rows : List Row) (last : List Byte) : List (List Byte) :=
  rows.map Prod.fst ++ if last = [] then [] else [last]

/- The lines of a file, numbered from one -/
def expected (file : List Byte) : List (List Byte × Nat) :=
  (texts (rows file).1 (rows file).2).zipIdx 1

theorem kept_sublist (returned : Bool) (rows : List Row) : kept returned rows <+ rows := by
  induction rows generalizing returned with
  | nil => exact Sublist.refl _
  | cons row rows ih =>
    rw [kept]
    split
    · split
      · exact (ih returned).cons row
      · exact (ih returned).cons_cons row
    · exact (ih _).cons_cons row

theorem kept_eq_iff (returned : Bool) (rows : List Row) :
    kept returned rows = rows ↔ Lossless returned rows := by
  induction rows generalizing returned with
  | nil => exact ⟨fun _ => trivial, fun _ => rfl⟩
  | cons row rows ih =>
    rw [kept, Lossless]
    split
    · split
      case isTrue hLost =>
        refine ⟨fun hSame => ?_, fun hNot => absurd hLost hNot.1⟩
        have hLe := (kept_sublist returned rows).length_le
        rw [hSame, length_cons] at hLe
        omega
      case isFalse hKeep =>
        rw [cons.injEq, ih]
        exact ⟨fun hBoth => ⟨hKeep, hBoth.2⟩, fun hBoth => ⟨rfl, hBoth.2⟩⟩
    · rw [cons.injEq, ih]
      exact and_iff_right rfl

variable {returned : Bool} {x : List Byte}

theorem linesFrom_end (hAt : At map it []) (hRounds : 0 < n) :
    linesFrom address map n it = some [] := by
  obtain ⟨n, rfl⟩ := Nat.exists_eq_succ_of_ne_zero hRounds.ne'
  rw [linesFrom, next_end address hAt]
  rfl

theorem findIdx_line {line rest : List Byte} (hLine : ∀ c ∈ line, isBreak c = false)
    (hEnd : ∀ c ∈ rest.head?, isBreak c = true) : (line ++ rest).findIdx isBreak = line.length := by
  induction line with
  | nil =>
    cases rest with
    | nil => rfl
    | cons b rest => rw [nil_append, findIdx_cons, hEnd b rfl]; rfl
  | cons c line ih =>
    rw [cons_append, findIdx_cons, hLine c mem_cons_self,
      ih fun b hMem => hLine b (mem_cons_of_mem c hMem)]
    rfl

/- A round gives a line, and goes on from what ends it. -/
theorem linesFrom_line {c : Byte} {line rest : List Byte}
    (hAt : At map it (c :: m)) (hRest : FileLines.skipBreaks c
      (if 0 < it.index then m else c :: m) = line ++ rest)
    (hSome : line ++ rest ≠ []) (hLine : ∀ c ∈ line, isBreak c = false)
    (hEnd : ∀ c ∈ rest.head?, isBreak c = true)
    (hIndex : it.index + 1 < 2 ^ 32) :
    ∃ it', At map it' rest ∧ it'.index = it.index + 1 ∧
      linesFrom address map (n + 1) it =
        (linesFrom address map n it').map ((line, it.index + 1) :: ·) := by
  rcases (next_spec address hAt hRest).2 hSome with ⟨line', it', hGives, hNext⟩
  have hIndex' : line'.index = it.index + 1 := hGives.index.trans (Nat.mod_eq_of_lt hIndex)
  have hText := hGives.text
  have hAtRest := hGives.atRest
  rw [findIdx_line hLine hEnd, take_left] at hText
  rw [findIdx_line hLine hEnd, drop_left] at hAtRest
  refine ⟨it', hAtRest, hGives.next.trans hIndex', ?_⟩
  rw [linesFrom, hNext]
  simp only [bind_eq_bind, Option.bind_some]
  rw [hText, Option.bind_some, hIndex']
  cases linesFrom address map n it' <;> rfl

theorem skipBreaks_line {c : Byte} {line : List Byte} (l : List Byte)
    (hLine : ∀ c ∈ line, isBreak c = false) (hSome : line ≠ []) :
    FileLines.skipBreaks c (line ++ l) = line ++ l := by
  cases line with
  | nil => exact absurd rfl hSome
  | cons b line =>
    have hBreak : ¬ FileLines.isBreak b = true := by
      rw [show FileLines.isBreak b = false from hLine b mem_cons_self]
      exact Bool.false_ne_true
    rw [cons_append, FileLines.skipBreaks, if_neg hBreak]

/- The break that the iterator looks for -/
abbrev seen (returned : Bool) : Byte :=
  if returned then cr else lf

/- From behind a break, the rows that are kept are given. -/
theorem linesFrom_rows (hAt : At map it (seen returned :: x))
    (hSkip : FileLines.skipBreaks (seen returned) x =
      FileLines.skipBreaks (seen returned) m)
    (hIndex : 0 < it.index) (hEnds : ∀ r ∈ (rows m).1, r.2 ≠ [cr])
    (hSmall : it.index + (texts (kept returned (rows m).1) (rows m).2).length < 2 ^ 32)
    (hRounds : x.length + 1 < n) :
    linesFrom address map n it =
      some ((texts (kept returned (rows m).1) (rows m).2).zipIdx (it.index + 1)) := by
  induction m using rows_induction generalizing returned x it n with
  | last line hLine =>
    rw [rows_last hLine, kept, texts, map_nil, nil_append] at hSmall ⊢
    obtain ⟨n, rfl⟩ := Nat.exists_eq_succ_of_ne_zero (Nat.ne_zero_of_lt hRounds)
    by_cases hNil : line = []
    · rw [hNil] at hSkip
      have hNext := (next_spec address hAt ((if_pos hIndex).symm ▸ hSkip)).1 rfl
      rw [if_pos hNil, linesFrom, hNext]
      rfl
    · have hStay := skipBreaks_line (c := seen returned) [] hLine hNil
      rw [append_nil, ← hSkip] at hStay
      rw [if_neg hNil, length_singleton] at hSmall
      have hRest : FileLines.skipBreaks (seen returned)
          (if 0 < it.index then x else seen returned :: x) = line ++ [] := by
        rw [if_pos hIndex, hStay, append_nil]
      rcases linesFrom_line address (n := n) hAt hRest
        (by rwa [append_nil]) hLine nofun hSmall with ⟨it', hAt', -, hLines⟩
      rw [if_neg hNil, hLines, linesFrom_end address hAt' (by omega)]
      rfl
  | row line t m hLine hEnd ih =>
    obtain ⟨n, rfl⟩ := Nat.exists_eq_succ_of_ne_zero (Nat.ne_zero_of_lt hRounds)
    rw [rows_line hLine hEnd] at hEnds hSmall ⊢
    dsimp only at hEnds hSmall ⊢
    have hEnds' := (forall_mem_cons.mp hEnds).2
    have hBreak : ∀ b, isBreak (seen b) = true := by decide
    -- the line is given, and a break ends it
    have hGo : ∀ (returned' : Bool) (x' : List Byte),
        FileLines.skipBreaks (seen returned) x =
          line ++ seen returned' :: x' →
        FileLines.skipBreaks (seen returned') x' =
          FileLines.skipBreaks (seen returned') m →
        kept returned ((line, t) :: (rows m).1) =
          (line, t) :: kept returned' (rows m).1 →
        linesFrom address map (n + 1) it =
          some ((texts (kept returned ((line, t) :: (rows m).1))
            (rows m).2).zipIdx (it.index + 1)) := by
      intro returned' x' hRest hSkip' hKept
      have hShorter := (skipBreaks_suffix (seen returned) x).length_le
      rw [hRest, length_append, length_cons] at hShorter
      rw [hKept, texts, map_cons, cons_append, length_cons] at hSmall
      rcases linesFrom_line address (n := n) hAt (by rw [if_pos hIndex, hRest]) (by simp) hLine
        (by simp [hBreak]) (by omega) with ⟨it', hAt', hNext, hLines⟩
      have hMore : linesFrom address map n it' = _ :=
        ih hAt' hSkip' (by omega) hEnds' (by rw [texts]; omega) (by omega)
      rw [hLines, hMore, hKept, hNext]
      rfl
    by_cases hEmpty : line = []
    · subst hEmpty
      cases hEnd with
      | carriageReturn => exact absurd rfl (forall_mem_cons.mp hEnds).1
      | lineFeed =>
        cases returned with
        | false => exact hGo false m hSkip rfl rfl
        | true => exact ih hAt hSkip hIndex hEnds' hSmall hRounds
      | both =>
        cases returned with
        | false => exact hGo false m hSkip rfl rfl
        | true => exact hGo true (lf :: m) hSkip rfl rfl
    · have hStay := hSkip.trans (skipBreaks_line (t ++ m) hLine hEmpty)
      have hKept : ∀ t, kept returned ((line, t) :: (rows m).1) =
          (line, t) :: kept (t ≠ [lf]) (rows m).1 := fun t => by
        rw [kept, if_neg hEmpty]
      cases hEnd with
      | carriageReturn => exact absurd rfl (forall_mem_cons.mp hEnds).1
      | lineFeed => exact hGo false m hStay rfl (hKept _)
      | both => exact hGo true (lf :: m) hStay rfl (hKept _)

/- The rows that the iterator keeps of a file -/
def keptFile : List Row → List Row
  | [] => []
  | (line, t) :: rows => (line, t) :: kept (t ≠ [lf]) rows

/- The first line starts where the file does. -/
theorem linesFrom_first {line rest : List Byte} (hFile : line ++ rest = map) (hSome : map ≠ [])
    (hLine : ∀ c ∈ line, isBreak c = false)
    (hEnd : ∀ c ∈ rest.head?, isBreak c = true) :
    ∃ it', At map it' rest ∧ it'.index = 1 ∧
      linesFrom address map (n + 1) ⟨0, 0, 4096⟩ =
        (linesFrom address map n it').map ((line, 1) :: ·) := by
  cases map with
  | nil => exact absurd rfl hSome
  | cons c cs =>
    have hStay : FileLines.skipBreaks c (c :: cs) = c :: cs := by
      rw [FileLines.skipBreaks, if_pos rfl, ite_self]
    have hAt : At (c :: cs) ⟨0, 0, 4096⟩ (c :: cs) :=
      ⟨suffix_refl _, (Nat.sub_self _).symm, Nat.succ_pos _⟩
    exact linesFrom_line address hAt (by rw [if_neg (Nat.lt_irrefl 0), hStay, hFile])
      (hFile ▸ hSome) hLine hEnd (by decide)

theorem mapLines_rows (hEnds : ∀ r ∈ (rows map).1, r.2 ≠ [cr])
    (hSmall : (texts (keptFile (rows map).1)
      (rows map).2).length < 2 ^ 32) :
    mapLines address map = some ((texts (keptFile (rows map).1) (rows map).2).zipIdx 1) := by
  unfold mapLines
  by_cases hNil : map = []
  · subst hNil
    rfl
  rw [if_neg (fun hZero => hNil (length_eq_zero_iff.mp hZero))]
  induction map using rows_induction with
  | last line hLine =>
    rcases linesFrom_first address
      (n := 2 * line.length + 1) (append_nil line) hNil hLine nofun with ⟨it', hAt', -, hLines⟩
    rw [hLines, linesFrom_end address hAt' (Nat.succ_pos _),
      rows_last hLine, keptFile, texts, if_neg hNil]
    rfl
  | row line t m hLine hEnd ih =>
    rw [rows_line hLine hEnd] at hEnds hSmall ⊢
    dsimp only [keptFile] at hEnds hSmall ⊢
    rw [texts, map_cons, cons_append, length_cons] at hSmall
    have hEnds' := (forall_mem_cons.mp hEnds).2
    have hWhole : (line ++ (t ++ m)).length =
        line.length + (t ++ m).length := length_append
    generalize hFile : line ++ (t ++ m) = file at *
    have hGo : ∀ (returned : Bool) (x : List Byte),
        t ++ m = seen returned :: x →
        FileLines.skipBreaks (seen returned) x =
          FileLines.skipBreaks (seen returned) m →
        decide (t ≠ [lf]) = returned →
        linesFrom address file (2 * file.length + 2) ⟨0, 0, 4096⟩ =
          some ((texts ((line, t) :: kept (t ≠ [lf]) (rows m).1) (rows m).2).zipIdx 1) := by
      intro returned x hText hSkip hReturned
      have hBreak : ∀ b, isBreak (seen b) = true := by decide
      have hLength := congrArg List.length hText
      rw [length_cons] at hLength
      rcases linesFrom_first address (n := 2 * file.length + 1) hFile hNil hLine
        (by simp [hText, hBreak]) with ⟨it', hAt', hIndex, hLines⟩
      rw [hReturned] at hSmall ⊢
      rw [hText] at hAt'
      have hMore := linesFrom_rows address (n := 2 * file.length + 1) hAt' hSkip (by omega) hEnds'
        (by rw [texts]; omega) (by omega)
      rw [hLines, hMore, hIndex]
      rfl
    cases hEnd with
    | carriageReturn => exact absurd rfl (forall_mem_cons.mp hEnds).1
    | lineFeed => exact hGo false m rfl rfl rfl
    | both => exact hGo true (lf :: m) rfl rfl rfl

variable {address}

/- Every index is that of an `unsigned int`. -/
theorem index_lt {lines : List (List Byte × Nat)}
    (hLines : linesFrom address map n it = some lines) : ∀ p ∈ lines, p.2 < 2 ^ 32 := by
  induction n generalizing it lines with
  | zero => exact nomatch hLines
  | succ n ih =>
    rw [linesFrom, bind_eq_bind, Option.bind_eq_some_iff] at hLines
    rcases hLines with ⟨found, hFound, hLines⟩
    cases found with
    | none =>
      obtain rfl := some.inj hLines
      exact nofun
    | some found =>
      rcases found with ⟨line, it'⟩
      have hIndex : line.index < 2 ^ 32 := by
        unfold Lines.next at hFound
        split at hFound
        · exact nomatch hFound
        · simp only [bind_eq_bind, Option.bind_eq_some_iff] at hFound
          rcases hFound with ⟨c, -, start, -, hFound⟩
          split at hFound
          · exact nomatch hFound
          · rw [Option.bind_eq_some_iff] at hFound
            rcases hFound with ⟨eol, -, hFound⟩
            obtain ⟨rfl, -⟩ := Prod.mk.inj (some.inj (some.inj hFound))
            exact Nat.mod_lt _ (by decide)
      simp only [bind_eq_bind, Option.bind_eq_some_iff] at hLines
      rcases hLines with ⟨text, -, lines, hMore, hLines⟩
      obtain rfl := some.inj hLines
      rw [forall_mem_cons]
      exact ⟨hIndex, ih hMore⟩

theorem keptFile_sublist (rows : List Row) : keptFile rows <+ rows := by
  cases rows with
  | nil => exact Sublist.refl _
  | cons row rows => exact (kept_sublist _ rows).cons_cons row

theorem keptFile_eq_iff (rows : List Row) : keptFile rows = rows ↔ LosslessFile rows := by
  cases rows with
  | nil => exact ⟨fun _ => trivial, fun _ => rfl⟩
  | cons row rows =>
    rw [keptFile, LosslessFile, cons.injEq, kept_eq_iff]
    exact and_iff_right rfl

theorem length_texts (rows : List Row) (last : List Byte) :
    (texts rows last).length = rows.length + if last = [] then 0 else 1 := by
  rw [texts, length_append, length_map]
  split <;> rfl

variable (address)

/-
  The lines of a file with LF and CR LF are given with their
  numbers exactly if no empty line is lost and the numbers
  fit.
-/
theorem mapLines_iff (file : List Byte)
    (hEnds : ∀ r ∈ (rows file).1, r.2 ≠ [cr]) :
    mapLines address file = some (expected file) ↔
      LosslessFile (rows file).1 ∧
        (expected file).length < 2 ^ 32 := by
  have hKept := keptFile_sublist (rows file).1
  have hTotal : (expected file).length =
      (texts (rows file).1 (rows file).2).length := length_zipIdx
  constructor
  · intro hLines
    have hNumbers : (expected file).length < 2 ^ 32 := by
      by_contra hMany
      have hLast : (expected file).length - 1 <
          (expected file).length := by omega
      unfold mapLines at hLines
      split at hLines
      case isTrue =>
        rw [← some.inj hLines] at hLast
        exact nomatch hLast
      case isFalse =>
        have hIndex := index_lt hLines _ (getElem_mem hLast)
        unfold expected at hIndex hMany hLast
        rw [getElem_zipIdx] at hIndex
        dsimp only at hIndex
        omega
    have hLe := hKept.length_le
    rw [hTotal, length_texts] at hNumbers
    rw [mapLines_rows address hEnds
      (by rw [length_texts]; omega)] at hLines
    have hSame := congrArg List.length (some.inj hLines)
    rw [hTotal, length_zipIdx, length_texts, length_texts] at hSame
    rw [hTotal, length_texts]
    exact ⟨(keptFile_eq_iff _).mp (hKept.eq_of_length (by omega)),
      hNumbers⟩
  · rintro ⟨hLossless, hNumbers⟩
    have hAll := (keptFile_eq_iff _).mpr hLossless
    rw [mapLines_rows address hEnds (by rw [hAll]; omega), hAll]
    rfl

theorem mapLines_iff_sample :
    mapLines 0 [0x61, cr, lf, 0x62] =
        some (expected [0x61, cr, lf, 0x62]) ↔
      LosslessFile (rows [0x61, cr, lf, 0x62]).1 ∧
        (expected [0x61, cr, lf, 0x62]).length < 2 ^ 32 :=
  mapLines_iff 0 _ (by decide)

/- The empty line after a line with CR LF is lost. -/
theorem mapLines_loses_line :
    (∀ r ∈ (rows [0x61, cr, lf, lf, 0x62]).1, r.2 ≠ [cr]) ∧
      mapLines 0 [0x61, cr, lf, lf, 0x62] =
        some [([0x61], 1), ([0x62], 2)] ∧
      expected [0x61, cr, lf, lf, 0x62] =
        [([0x61], 1), ([], 2), ([0x62], 3)] ∧
      mapLines 0 [0x61, cr, lf, lf, 0x62] ≠
        some (expected [0x61, cr, lf, lf, 0x62]) := by
  decide

end Efl.Eina.MappedLines
