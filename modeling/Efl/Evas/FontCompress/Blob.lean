import Efl.Evas.FontCompress.Rle
import Efl.Lib.Lists

/-
  The blob of a glyph in runs: header, jump table and spans.

  Main declarations:
    * `rowOf`
    * `ends`
    * `compressRle4_spec`
    * `decompressRle4_blob`
-/

---
-- Words
---

namespace Efl.Evas.FontCompress

open Bytes List Option

theorem mul_of_le {a b : Nat} (hFits : a * b ≤ 2147483647) :
    mul a b = some (a * b) := if_pos hFits

theorem mul_eq_some {a b c : Nat} (hMul : mul a b = some c) : a * b ≤ 2147483647 ∧ c = a * b := by
  unfold mul int at hMul
  split at hMul
  · next hFits => exact ⟨hFits, (some.inj hMul).symm⟩
  · exact nomatch hMul

@[simp] theorem length_word (n v : Nat) : (word n v).length = n := by
  rw [word, length_map, length_range]

theorem ofWord_word (n v : Nat) : ofWord (word n v) = v % 256 ^ n := by
  induction n generalizing v with
  | zero => simp [word, ofWord, Nat.mod_one]
  | succ n ih =>
    have hSplit : word (n + 1) v = BitVec.ofNat 8 v :: word n (v / 256) := by
      unfold word
      rw [range_succ_eq_map, map_cons, List.map_map]
      congr 1
      · simp
      · apply map_congr_left
        intro i _
        show BitVec.ofNat 8 (v / 256 ^ (i + 1)) = _
        rw [Nat.div_div_eq_div_mul, Nat.pow_succ, Nat.mul_comm 256]
    rw [hSplit, ofWord, ih, BitVec.toNat_ofNat,
      show (2 : Nat) ^ 8 = 256 from rfl, Nat.pow_succ', Nat.mod_mul]

/- A word among other bytes -/
theorem readWord_mid (a b : List Byte) {n v pos : Nat}
    (hPos : pos = a.length) (hWord : v < 256 ^ n) :
    readWord (a ++ (word n v ++ b)) pos n = some v := by
  have hRead := Block.read_append a (word n v) b
  rw [length_word] at hRead
  rw [readWord, hPos, hRead, map_some, ofWord_word, Nat.mod_eq_of_lt hWord]

theorem length_flatMap_word (n : Nat) (l : List Nat) :
    (l.flatMap (word n)).length = n * l.length := by
  induction l with
  | nil => simp
  | cons v l ih =>
    rw [flatMap_cons, length_append, ih, length_word, length_cons, Nat.mul_succ, Nat.add_comm]

---
-- Rows of Spans
---

/- The pixels of a row -/
def rowOf (src : List Byte) (pitch w y : Nat) : List Byte :=
  (src.drop (y * pitch)).take w

/- Where the spans of each row end -/
def ends (qs : List (List Byte)) : List Nat :=
  (List.range qs.length).map fun y =>
    (qs.take (y + 1)).flatten.length

/- Spans that are the levels of a row, but for the last zeros -/
def Encodes (pix q : List Byte) : Prop :=
  ∃ z, pix.map alpha8to4 = levels q ++ List.replicate z 0

section

variable {src : List Byte} {pitch w h : Nat}

/- The rows of a bitmap are in its memory. -/
def InMemory (src : List Byte) (pitch w h : Nat) : Prop :=
  (h - 1) * pitch + w ≤ src.length

section

variable (hMemory : InMemory src pitch w h)

include hMemory

theorem InMemory.row {y : Nat} (hRow : y < h) : y * pitch + w ≤ src.length := by
  have hLess : y * pitch ≤ (h - 1) * pitch := Nat.mul_le_mul_right pitch (by omega)
  unfold InMemory at hMemory
  omega

theorem InMemory.length_rowOf {y : Nat} (hRow : y < h) : (rowOf src pitch w y).length = w := by
  have hFits := hMemory.row hRow
  rw [rowOf, length_take, length_drop]
  omega

theorem InMemory.read
    {y : Nat} (hRow : y < h) : Block.read src (y * pitch) w = some (rowOf src pitch w y) :=
  if_pos (hMemory.row hRow)

end

@[simp] theorem length_ends (qs : List (List Byte)) : (ends qs).length = qs.length := by
  rw [ends, length_map, length_range]

theorem ends_concat (qs : List (List Byte)) (q : List Byte) :
    ends (qs ++ [q]) = ends qs ++ [(qs.flatten ++ q).length] := by
  unfold ends
  rw [length_append, length_singleton, range_succ, map_append]
  congr 1
  · apply map_congr_left
    intro y hY
    have hRow := mem_range.mp hY
    rw [take_append_of_le_length (by omega)]
  · have hAll : (qs ++ [q]).take (qs.length + 1) = qs ++ [q] := by
      apply take_of_length_le
      rw [length_append]
      rfl
    rw [map_singleton, hAll, flatten_concat]

theorem ends_getElem? {qs : List (List Byte)} {y : Nat}
    (hRow : y < qs.length) : (ends qs)[y]? = some (qs.take (y + 1)).flatten.length := by
  unfold ends
  rw [getElem?_map, getElem?_range hRow]
  rfl

theorem length_flatten_take_le (qs : List (List Byte)) (y : Nat) :
    (qs.take y).flatten.length ≤ qs.flatten.length := by
  conv_rhs => rw [← take_append_drop y qs]
  rw [flatten_append, length_append]
  exact Nat.le_add_right _ _

/- What `spanRows` has after some rows -/
structure RowsMade (src : List Byte) (pitch w k : Nat)
    (jumptab : List Nat) (p : List Byte) : Prop where
  spans : ∃ qs : List (List Byte), qs.length = k ∧
    jumptab = ends qs ∧ p = qs.flatten ∧
    ∀ y q, qs[y]? = some q → Encodes (rowOf src pitch w y) q
  length : p.length ≤ k * w

theorem spanRows_spec (hMemory : InMemory src pitch w h)
    (hPitch : w ≤ pitch) (hFits : pitch * h ≤ 2147483647) :
    ∃ jumptab p, spanRows src pitch w h (pitch * h * 2) =
        some (jumptab, p) ∧
      RowsMade src pitch w h jumptab p := by
  have hFold := Lists.foldlM_range (f := fun s y => do
      let from' ← mul y pitch
      let pix ← Block.read src from' w
      let r ← spanRow (pitch * h * 2) pix s.2
      some (s.1 ++ [r.1], r.2))
    (fun k (s : List Nat × List Byte) =>
      RowsMade src pitch w k s.1 s.2) (n := h) (b := ([], []))
    ⟨⟨[], rfl, rfl, rfl, by simp⟩, Nat.zero_le _⟩ (by
      rintro k hRow ⟨jumptab, p⟩ ⟨⟨qs, rfl, rfl, rfl, hRows⟩, hLen⟩
      have hLen : qs.flatten.length ≤ qs.length * w := hLen
      have hLess : qs.length * pitch ≤ pitch * h := by
        rw [Nat.mul_comm pitch]
        exact Nat.mul_le_mul_right pitch (by omega)
      have hNext : (qs.length + 1) * w ≤ pitch * h := by
        rw [Nat.mul_comm pitch]
        exact Nat.mul_le_mul (by omega) hPitch
      have hMul : mul qs.length pitch = some (qs.length * pitch) := mul_of_le (by omega)
      have hWidth := hMemory.length_rowOf hRow
      have hRoom : qs.flatten.length + (rowOf src pitch w qs.length).length ≤ pitch * h * 2 := by
        rw [hWidth]
        rw [Nat.succ_mul] at hNext
        omega
      rcases spanRow_spec _ _ hRoom with ⟨q, z, hSpan, hLevels, hCount⟩
      refine ⟨(ends qs ++ [(qs.flatten ++ q).length],
        qs.flatten ++ q), ?_, ⟨qs ++ [q], ?_, ?_, ?_, ?_⟩, ?_⟩
      · simp only [hMul, hMemory.read hRow, hSpan, bind_eq_bind, bind_some]
      · rw [length_append]
        rfl
      · exact (ends_concat qs q).symm
      · exact flatten_concat.symm
      · intro y q' hGet
        rw [getElem?_append] at hGet
        split at hGet
        · exact hRows y q' hGet
        · next hLast =>
            have hIs : y - qs.length = 0 ∧ q = q' := by
              rw [getElem?_singleton] at hGet
              split at hGet
              · exact ⟨by assumption, some.inj hGet⟩
              · cases hGet
            rw [show y = qs.length by omega, ← hIs.2]
            exact ⟨z, hLevels⟩
      · rw [length_append, Nat.succ_mul]
        rw [hWidth] at hCount
        exact Nat.add_le_add hLen hCount)
  rcases hFold with ⟨⟨jumptab, p⟩, hRun, hMade⟩
  exact ⟨jumptab, p, hRun, hMade⟩

end

---
-- The Buffer
---

/- Header, jump table and spans -/
def blob (jumptab : List Nat) (p : List Byte) : List Byte :=
  word 4 (jumpHeader p.length) ++
    (jumptab.flatMap (word (jumpWidth p.length)) ++ p)

/- The header and the start of the jump table are written. -/
structure TableMade (header width : Nat) (jumptab : List Nat) (size k : Nat)
    (buf : List Byte) : Prop where
  length : buf.length = size
  made : ∃ rest, buf =
    word 4 header ++ (jumptab.take k).flatMap (word width) ++ rest

theorem table_spec {header width : Nat} {jumptab : List Nat} {size : Nat}
    {buf : List Byte} (hStart : TableMade header width jumptab size 0 buf)
    (hSize : 4 + width * jumptab.length ≤ size) :
    ∃ buf', (List.range jumptab.length).foldlM (fun buf y => do
          let pos ← jumptab[y]?
          Block.write buf (4 + width * y) (word width pos)) buf =
        some buf' ∧
      TableMade header width jumptab size jumptab.length buf' := by
  refine Lists.foldlM_range (TableMade header width jumptab size) hStart ?_
  rintro k hRow buf ⟨hLength, rest, rfl⟩
  have hLess : width * (k + 1) ≤ width * jumptab.length := Nat.mul_le_mul_left width hRow
  rw [Nat.mul_succ] at hLess
  have hAt : 4 + width * k = (word 4 header ++ (jumptab.take k).flatMap (word width)).length := by
    rw [length_append, length_word, length_flatMap_word,
      length_take, Nat.min_eq_left (Nat.le_of_lt hRow)]
  have hRest : 4 + width * k + rest.length = size := by
    rw [length_append, ← hAt] at hLength
    exact hLength
  have hFits : (word width jumptab[k]).length ≤ rest.length := by
    rw [length_word]
    omega
  have hWrite := Block.write_end (word 4 header ++ (jumptab.take k).flatMap (word width)) hFits
  refine ⟨_, ?_, (Block.length_write hWrite).trans hLength,
    rest.drop (word width jumptab[k]).length, ?_⟩
  · rw [getElem?_eq_getElem hRow, bind_eq_bind, bind_some, hAt]
    exact hWrite
  · rw [take_succ_eq_append_getElem hRow, flatMap_append, flatMap_singleton]
    simp only [append_assoc]

/- What is written over the whole rest of a block -/
theorem write_rest (a : List Byte) {rest bs : List Byte}
    (hLength : bs.length = rest.length) : Block.write (a ++ rest) a.length bs = some (a ++ bs) := by
  rw [Block.write_end a (Nat.le_of_eq hLength), hLength, drop_length, append_nil]

theorem jumpWidth_le (total : Nat) : jumpWidth total ≤ 4 := by
  unfold jumpWidth
  split
  · exact Nat.le_refl _
  · split <;> decide

section

variable {src : List Byte} {pitch w h : Nat}

theorem compressRle4_spec (junk : Nat → Byte)
    (hMemory : InMemory src pitch w h) (hPitch : w ≤ pitch)
    (hFits : pitch * h * 2 ≤ 2147483647) (hRows : h < 65536) :
    ∃ jumptab p, compressRle4 junk src pitch w h =
        some (blob jumptab p) ∧
      RowsMade src pitch w h jumptab p := by
  rcases spanRows_spec hMemory hPitch (by omega) with ⟨jumptab, p, hSpans, hMade⟩
  refine ⟨jumptab, p, ?_, hMade⟩
  have hCount : jumptab.length = h := by
    rcases hMade.spans with ⟨qs, hQs, rfl, -, -⟩
    rw [length_ends, hQs]
  let width := jumpWidth p.length
  let header := jumpHeader p.length
  have hWidth : width ≤ 4 := jumpWidth_le _
  have hTable : h * width ≤ 262140 := by
    have hMul := Nat.mul_le_mul (show h ≤ 65535 by omega) hWidth
    omega
  have hTotal : p.length ≤ pitch * h := by
    have hMul : h * w ≤ pitch * h := by
      rw [Nat.mul_comm pitch]
      exact Nat.mul_le_mul_left h hPitch
    exact hMade.length.trans hMul
  let size := 4 + p.length + h * width
  have hSize : int size = some size := if_pos (by omega)
  have hRoom : (word 4 header).length ≤ (Block.fresh junk size).length := by
    rw [length_word, Block.length_fresh]
    omega
  have hHeader := Block.write_zero hRoom
  have hStart : TableMade header width jumptab size 0 (word 4 header ++
      (Block.fresh junk size).drop (word 4 header).length) := by
    refine ⟨(Block.length_write hHeader).trans (Block.length_fresh junk size),
      (Block.fresh junk size).drop (word 4 header).length, ?_⟩
    rw [take_zero, flatMap_nil, append_nil]
  rcases table_spec hStart (by
      rw [hCount, Nat.mul_comm width]
      omega) with ⟨buf, hTableRun, hLength, rest, hBuf⟩
  rw [take_length] at hBuf
  rw [hCount] at hTableRun
  have hAt : 4 + h * width = (word 4 header ++ jumptab.flatMap (word width)).length := by
    rw [length_append, length_word, length_flatMap_word, hCount, Nat.mul_comm]
  have hRest : p.length = rest.length := by
    rw [hBuf, length_append, ← hAt] at hLength
    omega
  unfold compressRle4
  rw [mul_of_le (show pitch * h ≤ 2147483647 by omega), bind_eq_bind,
    bind_some, mul_of_le hFits, bind_eq_bind, bind_some, hSpans, bind_eq_bind, bind_some]
  show (mul h width).bind (fun table =>
    (int (4 + p.length + table)).bind _) = _
  rw [mul_of_le (show h * width ≤ 2147483647 by omega), bind_some]
  show (int size).bind _ = _
  rw [hSize, bind_some]
  show (Block.write (Block.fresh junk size) 0 (word 4 header)).bind _ = _
  rw [hHeader, bind_some]
  refine (congrArg (fun o => Option.bind o _) hTableRun).trans ?_
  show Block.write buf (4 + h * width) p = _
  rw [hBuf, hAt, write_rest _ hRest, append_assoc]
  rfl

end

---
-- Reading the Blob
---

variable {src : List Byte} {pitch w h : Nat}
variable {qs : List (List Byte)}

/- Every entry fits in the width that was chosen. -/
theorem lt_of_jumpWidth {total v : Nat}
    (hTotal : total ≤ 2147483647) (hEntry : v ≤ total) : v < 256 ^ jumpWidth total := by
  unfold jumpWidth
  split
  · exact Nat.lt_of_le_of_lt (hEntry.trans hTotal) (by decide)
  · split
    · exact Nat.lt_of_le_of_lt (show v ≤ 65535 by omega) (by decide)
    · exact Nat.lt_of_le_of_lt (show v ≤ 255 by omega) (by decide)

theorem jumpEntry_blob {y : Nat}
    (hTotal : qs.flatten.length ≤ 2147483647) (hRow : y < qs.length) :
    jumpEntry (blob (ends qs) qs.flatten)
        (jumpWidth qs.flatten.length) y =
      some (((qs.take (y + 1)).flatten.length : Nat) : Int) := by
  have hEntry := length_flatten_take_le qs (y + 1)
  have hSplit := Lists.split_get (ends_getElem? hRow)
  have hAt : 4 + jumpWidth qs.flatten.length * y =
      (word 4 (jumpHeader qs.flatten.length) ++ ((ends qs).take y).flatMap
        (word (jumpWidth qs.flatten.length))).length := by
    rw [length_append, length_word, length_flatMap_word, length_take,
      length_ends, Nat.min_eq_left (Nat.le_of_lt hRow)]
  have hRead := readWord_mid (word 4 (jumpHeader qs.flatten.length) ++
    ((ends qs).take y).flatMap (word (jumpWidth qs.flatten.length)))
    (((ends qs).drop (y + 1)).flatMap (word (jumpWidth qs.flatten.length)) ++ qs.flatten) hAt
    (lt_of_jumpWidth hTotal hEntry)
  have hBlob : blob (ends qs) qs.flatten =
      word 4 (jumpHeader qs.flatten.length) ++
      ((ends qs).take y).flatMap (word (jumpWidth qs.flatten.length)) ++
      (word (jumpWidth qs.flatten.length) (qs.take
      (y + 1)).flatten.length ++ (((ends qs).drop (y + 1)).flatMap
      (word (jumpWidth qs.flatten.length)) ++ qs.flatten)) := by
    unfold blob
    conv_lhs => rw [hSplit]
    rw [flatMap_append, flatMap_cons]
    simp only [append_assoc]
  rw [jumpEntry, hBlob, hRead, bind_eq_bind, bind_some]
  congr 1
  split
  · exact CInt.wrap_of_inRange ⟨by omega, by omega⟩
  · rfl

theorem jumpStart_blob {y : Nat}
    (hTotal : qs.flatten.length ≤ 2147483647) (hRow : y < qs.length) :
    jumpStart (blob (ends qs) qs.flatten)
        (jumpWidth qs.flatten.length) y =
      some (((qs.take y).flatten.length : Nat) : Int) := by
  cases y with
  | zero => rfl
  | succ y => exact jumpEntry_blob hTotal (by omega)

/- The rows of a glyph, as levels of 8 bits -/
def shown (pix : List Byte) : List Byte :=
  pix.map fun a8 => expand (alpha8to4 a8)

def picture (src : List Byte) (pitch w h : Nat) : List Byte :=
  (List.range h).flatMap fun y => shown (rowOf src pitch w y)

theorem picture_succ (src : List Byte) (pitch w h : Nat) :
    picture src pitch w (h + 1) = picture src pitch w h ++ shown (rowOf src pitch w h) := by
  rw [picture, range_succ, flatMap_append, flatMap_singleton]
  rfl

theorem length_shown (pix : List Byte) : (shown pix).length = pix.length := length_map _

theorem InMemory.length_picture (hMemory : InMemory src pitch w h)
    {k : Nat} (hRows : k ≤ h) : (picture src pitch w k).length = k * w := by
  induction k with
  | zero => simp [picture]
  | succ k ih =>
    rw [picture_succ, length_append, length_shown, ih (by omega),
      hMemory.length_rowOf (by omega), Nat.succ_mul]

/- A row is drawn behind those before it. -/
theorem fullRow_encodes {pix q : List Byte} (hEncodes : Encodes pix q)
    (a b out : List Byte) {m : Nat} (hFits : pix.length ≤ m) :
    fullRow (a ++ (q ++ b)) q.length a.length out.length
        (out ++ List.replicate m 0) =
      some (out ++ shown pix ++ List.replicate (m - pix.length) 0) := by
  rcases hEncodes with ⟨z, hLevels⟩
  have hLength : pix.length = (levels q).length + z := by
    have hSame := congrArg List.length hLevels
    rwa [length_map, length_append, length_replicate] at hSame
  have hShown : shown pix = (levels q).map expand ++ List.replicate z 0 := by
    have hMap := congrArg (List.map expand) hLevels
    rw [List.map_map, map_append, map_replicate] at hMap
    exact hMap
  rw [fullRow_spec q a b out (by omega), hShown, hLength]
  simp only [append_assoc, replicate_append_replicate]
  congr 4
  omega

/- The blob before the spans of a row -/
def before (qs : List (List Byte)) (width k : Nat) : List Byte :=
  word 4 (jumpHeader qs.flatten.length) ++
    ((ends qs).flatMap (word width) ++ (qs.take k).flatten)

theorem length_before (qs : List (List Byte)) (width k : Nat) :
    (before qs width k).length = 4 + width * qs.length + (qs.take k).flatten.length := by
  rw [before, length_append, length_append, length_word,
    length_flatMap_word, length_ends, Nat.add_assoc]

theorem split_blob {k : Nat} (hRow : k < qs.length) :
    blob (ends qs) qs.flatten =
      before qs (jumpWidth qs.flatten.length) k ++ (qs[k] ++ (qs.drop (k + 1)).flatten) := by
  have hParts : qs.flatten = (qs.take k).flatten ++ (qs[k] ++ (qs.drop (k + 1)).flatten) := by
    conv_lhs =>
      rw [Lists.split_get (getElem?_eq_getElem hRow)]
    rw [flatten_append, flatten_cons]
  have hSpans := congrArg (fun l =>
    word 4 (jumpHeader qs.flatten.length) ++ ((ends qs).flatMap
    (word (jumpWidth qs.flatten.length)) ++ l)) hParts
  refine Eq.trans hSpans ?_
  simp only [before, append_assoc]

theorem decompressJumptab_blob (hMemory : InMemory src pitch w h) (hSize : w * h ≤ 2147483647)
    (hTotal : qs.flatten.length ≤ 2147483647) (hCount : qs.length = h)
    (hRows : ∀ y q, qs[y]? = some q → Encodes (rowOf src pitch w y) q) :
    decompressJumptab (jumpWidth qs.flatten.length)
        (blob (ends qs) qs.flatten) w h (List.replicate (w * h) 0) =
      some (picture src pitch w h) := by
  let width := jumpWidth qs.flatten.length
  let src' := blob (ends qs) qs.flatten
  have hFold := Lists.foldlM_range (f := fun dst y => do
      let start ← jumpStart src' width y
      let last ← jumpEntry src' width y
      let to' ← mul y w
      fullRow src' (last - start).toNat (4 + h * width + start) to' dst)
    (fun k dst => dst = picture src pitch w k ++ List.replicate ((h - k) * w) 0)
    (n := h) (b := List.replicate (w * h) 0)
    (by simp [picture, Nat.mul_comm w]) (by
      rintro k hRow dst rfl
      have hIn : k < qs.length := by omega
      have hWidth := hMemory.length_rowOf hRow
      have hLess : (k + 1) * w ≤ h * w := Nat.mul_le_mul_right w hRow
      rw [Nat.succ_mul] at hLess
      have hMul : mul k w = some (k * w) := mul_of_le (by rw [Nat.mul_comm] at hSize; omega)
      have hStart : jumpStart src' width k = some _ := jumpStart_blob hTotal hIn
      have hEnd : jumpEntry src' width k = some _ := jumpEntry_blob hTotal hIn
      have hSucc : (qs.take (k + 1)).flatten.length =
          (qs.take k).flatten.length + qs[k].length := by
        rw [take_succ_eq_append_getElem hIn, flatten_concat, length_append]
      have hBefore := split_blob hIn
      have hAt : (4 + h * width : Int) +
            ((qs.take k).flatten.length : Nat) =
          (before qs width k).length := by
        rw [length_before, hCount]
        push_cast
        ring
      have hNum : ((((qs.take (k + 1)).flatten.length : Nat) : Int) -
          ((qs.take k).flatten.length : Nat)).toNat = qs[k].length := by
        omega
      have hOut : k * w = (picture src pitch w k).length :=
        (hMemory.length_picture (Nat.le_of_lt hRow)).symm
      have hDraw := fullRow_encodes (hRows k qs[k] (getElem?_eq_getElem hIn))
        (before qs width k) (qs.drop (k + 1)).flatten (picture src pitch w k)
        (show (rowOf src pitch w k).length ≤ (h - k) * w by
          rw [hWidth, Nat.sub_mul]
          omega)
      refine ⟨_, ?_, rfl⟩
      simp only [hStart, hEnd, hMul, bind_eq_bind, bind_some]
      rw [hNum, hAt, hOut]
      refine (congrArg (fun l => fullRow l _ _ _ _) hBefore).trans (hDraw.trans ?_)
      rw [picture_succ, hWidth]
      congr 3
      rw [Nat.sub_mul, Nat.sub_mul, Nat.succ_mul]
      omega)
  rcases hFold with ⟨dst, hRun, rfl⟩
  refine Eq.trans hRun ?_
  rw [Nat.sub_self, Nat.zero_mul, replicate_zero, append_nil]

theorem readWord_blob (jumptab : List Nat) (p : List Byte) :
    readWord (blob jumptab p) 0 4 = some (jumpHeader p.length) := by
  refine readWord_mid [] _ rfl ?_
  unfold jumpHeader
  split
  · decide
  · split <;> decide

theorem decompressRle4_blob {jumptab : List Nat} {p : List Byte}
    (hMade : RowsMade src pitch w h jumptab p)
    (hMemory : InMemory src pitch w h) (hSize : w * h ≤ 2147483647) :
    decompressRle4 (blob jumptab p) w h (List.replicate (w * h) 0) =
      some (picture src pitch w h) := by
  rcases hMade with ⟨⟨qs, hCount, rfl, rfl, hRows⟩, hLength⟩
  have hTotal : qs.flatten.length ≤ 2147483647 := by
    rw [Nat.mul_comm] at hSize
    exact hLength.trans hSize
  have hDraw := decompressJumptab_blob hMemory hSize hTotal hCount hRows
  rw [decompressRle4, readWord_blob, bind_eq_bind, bind_some]
  unfold jumpWidth at hDraw
  unfold jumpHeader
  by_cases hLarge : 65535 < qs.flatten.length
  · rw [if_pos hLarge] at hDraw ⊢
    exact hDraw
  · rw [if_neg hLarge] at hDraw ⊢
    by_cases hMiddle : 255 < qs.flatten.length
    · rw [if_pos hMiddle] at hDraw ⊢
      exact hDraw
    · rw [if_neg hMiddle] at hDraw ⊢
      exact hDraw

end Efl.Evas.FontCompress
