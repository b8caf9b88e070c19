import Efl.Evas.FontCompress.Blob

/-
  Glyphs that are compressed and drawn again: the packed
  levels, both encodings, and when the pixels are right.

  Main declarations:
    * `cut`
    * `Fits`, `Exact`
    * `unpackRow_packRow`
    * `glyph_round_trip_iff`
-/

---
-- Packed Rows
---

namespace Efl.Evas.FontCompress

open Bytes List Option

/-
  What is drawn of a packed row: the last of an odd number of
  pixels is cut to its upper half.
-/
def cut : List Byte → List Byte
  | s₀ :: s₁ :: s =>
    expand (alpha8to4 s₀) :: expand (alpha8to4 s₁) :: cut s
  | [s₀] => [expand (s₀.toNat >>> 4)]
  | [] => []

theorem length_packRow (s : List Byte) : (packRow s).length = (s.length + 1) / 2 := by
  induction s using packRow.induct with
  | case1 s₀ s₁ s ih =>
    rw [packRow, length_cons, ih, length_cons, length_cons]
    omega
  | case2 s₀ => simp [packRow]
  | case3 => rfl

theorem length_cut (s : List Byte) : (cut s).length = s.length := by
  induction s using cut.induct with
  | case1 s₀ s₁ s ih =>
    rw [cut, length_cons, length_cons, ih, length_cons, length_cons]
  | case2 s₀ => rfl
  | case3 => rfl

theorem unpackRow_packRow (s : List Byte) : unpackRow s.length (packRow s) = cut s := by
  induction s using packRow.induct with
  | case1 s₀ s₁ s ih =>
    rcases toNat_span (alpha8to4_lt s₀) (alpha8to4_lt s₁) with ⟨hHigh, hLow⟩
    rw [packRow, cut, ← ih]
    show expand ((span _ _).toNat >>> 4) :: expand ((span _ _).toNat &&& 0x0f) :: _ = _
    rw [hHigh, hLow]
  | case2 s₀ =>
    have hHigh : ∀ s₀ : Byte, (s₀ &&& 0xf0).toNat >>> 4 = s₀.toNat >>> 4 := by
      set_option maxRecDepth 8000 in decide
    show [expand ((s₀ &&& 0xf0).toNat >>> 4)] = _
    rw [hHigh]
    rfl
  | case3 => rfl

/- The last of an odd number of pixels -/
def oddLast : List Byte → Option Byte
  | _ :: _ :: s => oddLast s
  | [s₀] => some s₀
  | [] => none

/- The row is right when the level of that pixel is its half. -/
theorem cut_eq_shown_iff (s : List Byte) :
    cut s = shown s ↔ ∀ a8, oddLast s = some a8 → alpha8to4 a8 = a8.toNat >>> 4 := by
  induction s using cut.induct with
  | case1 s₀ s₁ s ih =>
    rw [cut, oddLast, ← ih]
    show _ :: _ :: cut s = _ :: _ :: shown s ↔ _
    simp
  | case2 s₀ =>
    have hExpand : ∀ s₀ : Byte,
        expand (s₀.toNat >>> 4) = expand (alpha8to4 s₀) ↔ alpha8to4 s₀ = s₀.toNat >>> 4 := by
      set_option maxRecDepth 8000 in decide
    show [expand _] = [expand _] ↔ _
    rw [List.cons.injEq, and_iff_left rfl, hExpand]
    simp [oddLast]
  | case3 => simp [cut, shown, oddLast]

---
-- Packed Glyphs
---

variable {g : Nat → List Byte}

/- Rows of one length, written one after the other -/
theorem write_rows {h : Nat} (len : Nat) (pre : List Byte)
    {rest : List Byte} {f : List Byte → Nat → Option (List Byte)}
    (hLength : ∀ y < h, (g y).length = len) (hStep : ∀ y < h, ∀ buf,
      f buf y = Block.write buf (pre.length + y * len) (g y))
    (hRest : rest.length = h * len) :
    (List.range h).foldlM f (pre ++ rest) = some (pre ++ (List.range h).flatMap g) := by
  have hFold :=
    Lists.foldlM_range (f := f) (fun k buf => ∃ rest, rest.length =
    (h - k) * len ∧ buf = pre ++ (List.range k).flatMap g ++ rest) (n :=
    h) (b := pre ++ rest) ⟨rest, by simpa using hRest, by simp⟩ (by
      rintro k hRow buf ⟨rest, hLeft, rfl⟩
      have hDone : ∀ k ≤ h, ((List.range k).flatMap g).length = k * len := by
        intro k
        induction k with
        | zero => simp
        | succ k ih =>
          intro hk
          rw [range_succ, flatMap_append, length_append, ih (by omega),
            flatMap_singleton, hLength k (by omega), Nat.succ_mul]
      have hAt : pre.length + k * len = (pre ++ (List.range k).flatMap g).length := by
        rw [length_append, hDone k (Nat.le_of_lt hRow)]
      have hFits : (g k).length ≤ rest.length := by
        rw [hLength k hRow, hLeft]
        exact Nat.le_mul_of_pos_left len (by omega)
      refine ⟨pre ++ (List.range k).flatMap g ++
        (g k ++ rest.drop (g k).length), ?_, rest.drop (g k).length, ?_, ?_⟩
      · rw [hStep k hRow, hAt]
        exact Block.write_end _ hFits
      · rw [length_drop, hLeft, hLength k hRow,
          show h - k = (h - (k + 1)) + 1 by omega, Nat.succ_mul]
        omega
      · rw [range_succ, flatMap_append, flatMap_singleton]
        simp only [append_assoc])
  rcases hFold with ⟨buf, hRun, rest', hNone, rfl⟩
  rw [Nat.sub_self, Nat.zero_mul, length_eq_zero_iff] at hNone
  rw [hRun, hNone, append_nil]

/- A row among rows of one length -/
theorem read_rows {h len : Nat} (pre : List Byte)
    (hLength : ∀ y < h, (g y).length = len) {y : Nat} (hRow : y < h) :
    Block.read (pre ++ (List.range h).flatMap g) (pre.length + y * len) len = some (g y) := by
  have hSplit : List.range h = List.range y ++ y :: (List.range h).drop (y + 1) := by
    have hGet : (List.range h)[y]? = some y := getElem?_range hRow
    have hParts := Lists.split_get hGet
    rwa [take_range, Nat.min_eq_left (Nat.le_of_lt hRow)] at hParts
  have hDone : ((List.range y).flatMap g).length = y * len := by
    clear hSplit
    induction y with
    | zero => simp
    | succ y ih =>
      rw [range_succ, flatMap_append, length_append, ih (by omega),
        flatMap_singleton, hLength y (by omega), Nat.succ_mul]
  rw [hSplit, flatMap_append, flatMap_cons, ← append_assoc]
  have hRead := Block.read_append (pre ++ (List.range y).flatMap g)
    (g y) (((List.range h).drop (y + 1)).flatMap g)
  rwa [length_append, hDone, hLength y hRow] at hRead

section

variable {src : List Byte} {pitch w h : Nat}

/- The blob of a packed glyph, and what is drawn of it -/
def packed (src : List Byte) (pitch w h : Nat) : List Byte :=
  (List.range h).flatMap fun y => packRow (rowOf src pitch w y)

def cuts (src : List Byte) (pitch w h : Nat) : List Byte :=
  (List.range h).flatMap fun y => cut (rowOf src pitch w y)

theorem compressBpp4_spec (junk : Nat → Byte) (hMemory : InMemory src pitch w h)
    (hFits : (h - 1) * pitch ≤ 2147483647)
    (hSize : (w + 1) / 2 * h ≤ 2147483647) :
    compressBpp4 junk src pitch w h = some (word 4 0 ++ packed src pitch w h) := by
  let pitch2 := (w + 1) / 2
  have hHeader : Block.write
      (Block.fresh junk (4 + pitch2 * h)) 0 (word 4 0) =
      some (word 4 0 ++ (Block.fresh junk (4 + pitch2 * h)).drop 4) := by
    refine Block.write_zero ?_
    rw [length_word, Block.length_fresh]
    omega
  unfold compressBpp4
  show (mul pitch2 h).bind _ = _
  rw [mul_of_le hSize, bind_some]
  show (Block.write (Block.fresh junk (4 + pitch2 * h)) 0 (word 4 0)).bind _ = _
  rw [hHeader, bind_some]
  refine write_rows pitch2 (word 4 0) ?_ ?_ ?_
  · intro y hRow
    rw [length_packRow, hMemory.length_rowOf hRow]
  · intro y hRow buf
    have hLess : y * pitch ≤ (h - 1) * pitch := Nat.mul_le_mul_right pitch (by omega)
    have hLess2 : y * pitch2 ≤ pitch2 * h := by
      rw [Nat.mul_comm pitch2]
      exact Nat.mul_le_mul_right pitch2 (Nat.le_of_lt hRow)
    simp only [mul_of_le (show y * pitch ≤ 2147483647 by omega),
      mul_of_le (show y * ((w + 1) / 2) ≤ 2147483647 from hLess2.trans
      hSize), hMemory.read hRow, bind_eq_bind, bind_some, length_word]
    rfl
  · rw [length_drop, Block.length_fresh, Nat.add_sub_cancel_left, Nat.mul_comm]

theorem decompressBpp4_packed (hMemory : InMemory src pitch w h)
    (hSize : w * h ≤ 2147483647) :
    decompressBpp4 (word 4 0 ++ packed src pitch w h) w w h
        (List.replicate (w * h) 0) = some (cuts src pitch w h) := by
  let pitch2 := (w + 1) / 2
  have hHalf : ∀ y < h, (packRow (rowOf src pitch w y)).length = pitch2 := by
    intro y hRow
    rw [length_packRow, hMemory.length_rowOf hRow]
  refine write_rows w [] ?_ ?_ ?_
  · intro y hRow
    rw [length_cut, hMemory.length_rowOf hRow]
  · intro y hRow buf
    have hLess : y * w ≤ w * h := by
      rw [Nat.mul_comm w]
      exact Nat.mul_le_mul_right w (Nat.le_of_lt hRow)
    have hLess2 : y * pitch2 ≤ y * w := Nat.mul_le_mul_left y (show (w + 1) / 2 ≤ w by omega)
    have hRead := read_rows (word 4 0) hHalf hRow
    rw [length_word] at hRead
    have hUnpack := unpackRow_packRow (rowOf src pitch w y)
    rw [hMemory.length_rowOf hRow] at hUnpack
    simp only [mul_of_le (show y * w ≤ 2147483647 by omega),
      mul_of_le (show y * ((w + 1) / 2) ≤ 2147483647 from hLess2.trans
      (hLess.trans hSize)), bind_eq_bind, bind_some]
    refine (congrArg (fun o => Option.bind o _) hRead).trans ?_
    show Block.write buf (y * w) (unpackRow w _) = _
    rw [hUnpack, length_nil, Nat.zero_add]
  · rw [length_replicate, Nat.mul_comm]

end

---
-- The Round Trip
---

/- The pixels that are to be drawn -/
def image (src : List Byte) (pitch w h : Nat) : List Byte :=
  (List.range h).flatMap fun y =>
    (rowOf src pitch w y).map fun a8 =>
      BitVec.ofNat 8 (alpha8to4 a8 * 17)

/-
  The sizes are of 16 bits, and what is computed of them are
  `int`s.
-/
def Fits (pitch w h : Nat) : Prop :=
  w < 65536 ∧ h < 65536 ∧
    if w * h < 256 then (h - 1) * pitch ≤ 2147483647
    else pitch * h * 2 ≤ 2147483647

/-
  In a small glyph of odd width, the level of the last pixel
  of each row is its upper half.
-/
def Exact (src : List Byte) (pitch w h : Nat) : Prop :=
  w * h < 256 → ∀ y < h, ∀ a8,
    oddLast (rowOf src pitch w y) = some a8 →
      alpha8to4 a8 = a8.toNat >>> 4

variable {src : List Byte} {pitch w h : Nat}

theorem picture_eq_image (src : List Byte) (pitch w h : Nat) :
    picture src pitch w h = image src pitch w h := by
  unfold picture image
  congr 1
  funext y
  apply map_congr_left
  intro a8 _
  exact expand_eq (alpha8to4_lt a8)

/- Rows of one length are equal when all of them are. -/
theorem flatMap_range_eq_iff {f : Nat → List Byte}
    (hLength : ∀ y < h, (f y).length = (g y).length) :
    (List.range h).flatMap f = (List.range h).flatMap g ↔ ∀ y < h, f y = g y := by
  induction h with
  | zero => simp
  | succ h ih =>
    have hRest := ih fun y hRow => hLength y (by omega)
    have hLast := hLength h (Nat.lt_succ_self h)
    rw [range_succ, flatMap_append, flatMap_append, flatMap_singleton, flatMap_singleton]
    constructor
    · intro hSame
      rcases append_inj' hSame hLast with ⟨hInit, hRow⟩
      intro y hY
      by_cases hIs : y = h
      · exact hIs ▸ hRow
      · exact hRest.mp hInit y (by omega)
    · intro hAll
      rw [hRest.mpr fun y hRow => hAll y (by omega), hAll h (Nat.lt_succ_self h)]

theorem cuts_eq_picture_iff (src : List Byte) (pitch : Nat)
    (hSmall : w * h < 256) : cuts src pitch w h = picture src pitch w h ↔ Exact src pitch w h := by
  unfold cuts picture Exact
  rw [flatMap_range_eq_iff]
  · constructor
    · intro hSame _ y hRow
      exact (cut_eq_shown_iff _).mp (hSame y hRow)
    · intro hExact y hRow
      exact (cut_eq_shown_iff _).mpr (hExact hSmall y hRow)
  · intro y hRow
    rw [length_cut, length_shown]

variable {rle : List Byte}

/- A blob of a glyph of 16-bit sizes is drawn. -/
theorem roundTrip_eq (junk : Nat → Byte) (hWidth : w < 65536) (hRows : h < 65536)
    (hCompress : glyphCompress junk true src pitch w h = some rle) :
    roundTrip junk src pitch w h =
      (mul w h).bind fun size =>
        (readWord rle 0 4).bind fun header =>
          if 0 < header ∧ header < 2147483648 then
            decompressRle4 rle w h (List.replicate size 0)
          else
            decompressBpp4 rle w w h (List.replicate size 0) := by
  have hW : (BitVec.ofNat 16 w).toNat = w := by
    rw [BitVec.toNat_ofNat, Nat.mod_eq_of_lt hWidth]
  have hH : (BitVec.ofNat 16 h).toNat = h := by
    rw [BitVec.toNat_ofNat, Nat.mod_eq_of_lt hRows]
  rw [roundTrip, hCompress, bind_eq_bind, bind_some, glyphUncompress]
  simp only [hW, hH]
  rfl

theorem glyphCompress_eq (junk : Nat → Byte) (hRows : 1 ≤ h)
    (hPitch : 1 ≤ pitch) (hSize : w * h ≤ 2147483647) :
    glyphCompress junk true src pitch w h =
      if w * h < 256 then compressBpp4 junk src pitch w h
      else compressRle4 junk src pitch w h := by
  rw [glyphCompress, if_neg (by omega), mul_of_le hSize]
  rfl

/- What is drawn when the sizes fit -/
theorem roundTrip_spec (junk : Nat → Byte)
    (hMemory : InMemory src pitch w h) (hWidth : 1 ≤ w) (hRows : 1 ≤ h)
    (hPitch : w ≤ pitch) (hFits : Fits pitch w h) :
    roundTrip junk src pitch w h =
      some (if w * h < 256 then cuts src pitch w h
        else picture src pitch w h) := by
  rcases hFits with ⟨hW, hH, hFits⟩
  by_cases hSmall : w * h < 256
  · rw [if_pos hSmall] at hFits ⊢
    have hHalf : (w + 1) / 2 * h ≤ w * h := Nat.mul_le_mul_right h (by omega)
    have hCompress : glyphCompress junk true src pitch w h =
        some (word 4 0 ++ packed src pitch w h) := by
      rw [glyphCompress_eq junk hRows (by omega) (by omega), if_pos hSmall]
      exact compressBpp4_spec junk hMemory hFits (by omega)
    have hHeader : readWord (word 4 0 ++ packed src pitch w h) 0 4 = some 0 :=
      readWord_mid [] _ rfl (by decide)
    rw [roundTrip_eq junk hW hH hCompress, mul_of_le (by omega),
      bind_some, hHeader, bind_some, if_neg (by decide)]
    exact decompressBpp4_packed hMemory (by omega)
  · rw [if_neg hSmall] at hFits ⊢
    have hSize : w * h ≤ pitch * h := Nat.mul_le_mul_right h hPitch
    rcases compressRle4_spec junk hMemory hPitch hFits hH with ⟨jumptab, p, hRun, hMade⟩
    have hCompress : glyphCompress junk true src pitch w h = some (blob jumptab p) := by
      rw [glyphCompress_eq junk hRows (by omega) (by omega), if_neg hSmall]
      exact hRun
    have hHeader : 0 < jumpHeader p.length ∧ jumpHeader p.length < 2147483648 := by
      unfold jumpHeader
      split
      · decide
      · split <;> decide
    rw [roundTrip_eq junk hW hH hCompress, mul_of_le (by omega),
      bind_some, readWord_blob, bind_some, if_pos hHeader]
    exact decompressRle4_blob hMade hMemory (by omega)

---
-- When It Is Right
---

variable {dst dst' : List Byte}

theorem length_drawRun {d len : Nat} {val : Byte}
    (hDraw : drawRun d len val dst = some dst') : dst'.length = dst.length := by
  unfold drawRun at hDraw
  split at hDraw
  · rw [some.inj hDraw]
  · exact Block.length_write hDraw

theorem length_fullRow {n d : Nat} {p : Int}
    (hRow : fullRow rle n p d dst = some dst') : dst'.length = dst.length := by
  induction n generalizing p d dst with
  | zero =>
    rw [fullRow] at hRow
    rw [some.inj hRow]
  | succ n ih =>
    rw [fullRow] at hRow
    simp only [bind_eq_bind, bind_eq_some_iff] at hRow
    rcases hRow with ⟨b, -, dst₁, hDraw, hRest⟩
    exact (ih hRest).trans (length_drawRun hDraw)

theorem length_decompressJumptab {width : Nat}
    (hRun : decompressJumptab width rle pitch h dst = some dst') : dst'.length = dst.length := by
  refine Lists.inv_of_foldlM (fun buf => buf.length = dst.length) ?_ rfl hRun
  intro buf y buf' hBuf hStep
  simp only [bind_eq_bind, bind_eq_some_iff] at hStep
  rcases hStep with ⟨start, -, last, -, to', -, hRow⟩
  exact (length_fullRow hRow).trans hBuf

theorem length_decompressRle4
    (hRun : decompressRle4 rle pitch h dst = some dst') : dst'.length = dst.length := by
  rw [decompressRle4, bind_eq_bind, bind_eq_some_iff] at hRun
  rcases hRun with ⟨header, -, hRun⟩
  split at hRun
  · exact length_decompressJumptab hRun
  · split at hRun
    · exact length_decompressJumptab hRun
    · split at hRun
      · exact length_decompressJumptab hRun
      · rw [some.inj hRun]

theorem length_decompressBpp4
    (hRun : decompressBpp4 rle pitch w h dst = some dst') : dst'.length = dst.length := by
  refine Lists.inv_of_foldlM (fun buf => buf.length = dst.length) ?_ rfl hRun
  intro buf y buf' hBuf hStep
  simp only [bind_eq_bind, bind_eq_some_iff] at hStep
  rcases hStep with ⟨from', -, to', -, s, -, hWrite⟩
  exact (Block.length_write hWrite).trans hBuf

theorem length_glyphUncompress {buf : List Byte} {width rows : BitVec 16}
    (hRun : glyphUncompress rle width rows = some buf) : buf.length = width.toNat * rows.toNat := by
  unfold glyphUncompress at hRun
  simp only [bind_eq_bind, bind_eq_some_iff] at hRun
  rcases hRun with ⟨size, hMul, header, -, hRun⟩
  rw [← (mul_eq_some hMul).2]
  split at hRun
  · rw [length_decompressRle4 hRun, length_replicate]
  · rw [length_decompressBpp4 hRun, length_replicate]

/- Sizes of which 16 bits are enough to count the pixels -/
theorem lt_of_mul_mod {m n b : Nat} (hSome : 1 ≤ n)
    (hBound : 0 < b) (hSame : (m % b) * (n % b) = m * n) : m < b := by
  by_contra hLarge
  have hMod : m % b < m := Nat.lt_of_lt_of_le (Nat.mod_lt m hBound) (by omega)
  have hLess : (m % b) * (n % b) ≤ (m % b) * n := Nat.mul_le_mul_left _ (Nat.mod_le n b)
  have hStrict : (m % b) * n < m * n := Nat.mul_lt_mul_of_pos_right hMod hSome
  omega

theorem fits_of_roundTrip (junk : Nat → Byte) {buf : List Byte}
    (hWidth : 1 ≤ w) (hRows : 1 ≤ h) (hPitch : w ≤ pitch)
    (hRun : roundTrip junk src pitch w h = some buf)
    (hLength : buf.length = w * h) : Fits pitch w h := by
  rw [roundTrip, bind_eq_bind, bind_eq_some_iff] at hRun
  rcases hRun with ⟨rle, hCompress, hDraw⟩
  have hSame := (length_glyphUncompress hDraw).symm.trans hLength
  rw [BitVec.toNat_ofNat, BitVec.toNat_ofNat] at hSame
  refine ⟨lt_of_mul_mod hRows (by decide) hSame,
    lt_of_mul_mod hWidth (by decide) (by
      rw [Nat.mul_comm, hSame, Nat.mul_comm]), ?_⟩
  rw [glyphCompress, if_neg (by omega), bind_eq_bind, bind_eq_some_iff] at hCompress
  rcases hCompress with ⟨size, hMul, hCompress⟩
  rw [(mul_eq_some hMul).2] at hCompress
  have hCompress :
      (if w * h < 256 then compressBpp4 junk src pitch w h
        else compressRle4 junk src pitch w h) = some rle := hCompress
  by_cases hSmall : w * h < 256
  · rw [if_pos hSmall] at hCompress ⊢
    unfold compressBpp4 at hCompress
    simp only [bind_eq_bind, bind_eq_some_iff] at hCompress
    rcases hCompress with ⟨body, -, buf', -, hFold⟩
    rcases Lists.of_foldlM_range hFold (h - 1) (by omega) with ⟨b₁, b₂, hStep⟩
    rw [bind_eq_some_iff] at hStep
    rcases hStep with ⟨from', hFrom, -⟩
    exact (mul_eq_some hFrom).1
  · rw [if_neg hSmall] at hCompress ⊢
    unfold compressRle4 at hCompress
    simp only [bind_eq_bind, bind_eq_some_iff] at hCompress
    rcases hCompress with ⟨room, hFirst, room', hSecond, -⟩
    rw [(mul_eq_some hFirst).2] at hSecond
    exact (mul_eq_some hSecond).1

/-
  A bitmap in memory comes back as its levels, and nothing is
  accessed outside of a buffer, just when the sizes fit and
  the cut pixels have the right level.
-/
theorem glyph_round_trip_iff (junk : Nat → Byte)
    (hMemory : InMemory src pitch w h) (hWidth : 1 ≤ w)
    (hRows : 1 ≤ h) (hPitch : w ≤ pitch) :
    roundTrip junk src pitch w h =
        some (image src pitch w h) ↔
      Fits pitch w h ∧ Exact src pitch w h := by
  rw [← picture_eq_image]
  have hShown : ∀ hFits : Fits pitch w h,
      roundTrip junk src pitch w h =
          some (picture src pitch w h) ↔
        Exact src pitch w h := by
    intro hFits
    rw [roundTrip_spec junk hMemory hWidth hRows hPitch hFits,
      Option.some.injEq]
    by_cases hSmall : w * h < 256
    · rw [if_pos hSmall]
      exact cuts_eq_picture_iff src pitch hSmall
    · rw [if_neg hSmall]
      exact ⟨fun _ hNot => absurd hNot hSmall, fun _ => rfl⟩
  constructor
  · intro hRun
    have hLength : (picture src pitch w h).length = w * h := by
      rw [hMemory.length_picture (Nat.le_refl h), Nat.mul_comm]
    have hFits :=
      fits_of_roundTrip junk hWidth hRows hPitch hRun hLength
    exact ⟨hFits, (hShown hFits).mp hRun⟩
  · rintro ⟨hFits, hExact⟩
    exact (hShown hFits).mpr hExact

/- One pixel of 8, whose level is 0, and one of 15 besides -/
theorem glyph_round_trip_iff_sample :
    roundTrip (fun _ => 0) [8, 15] 2 2 1 =
        some (image [8, 15] 2 2 1) ↔
      Fits 2 2 1 ∧ Exact [8, 15] 2 2 1 :=
  glyph_round_trip_iff (fun _ => 0) (show 0 * 2 + 2 ≤ 2 by decide)
    (by decide) (by decide) (by decide)

/- A pixel of 15 has level 1, and is drawn as 0. -/
theorem last_pixel_is_cut :
    InMemory [15] 1 1 1 ∧
      roundTrip (fun _ => 0) [15] 1 1 1 = some [0] ∧
      image [15] 1 1 1 = [17] :=
  ⟨show 0 * 1 + 1 ≤ 1 by decide, by decide, by decide⟩

end Efl.Evas.FontCompress
