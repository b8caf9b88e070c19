import Efl.Lib.Block
import Efl.Lib.Bytes
import Efl.Lib.CInt

/-
  Compressed glyphs, `evas_font_compress.c`.

  An access outside of a buffer, and a number that is to be
  an `int` and is not, are `none`.  Memory is always there; what a
  block of it holds at first is a parameter.

  Main declarations:
    * `alpha8to4`
    * `compressRle4`, `decompressRle4`
-/

---
-- Levels and Words
---

namespace Efl.Evas.FontCompress

open Bytes

/- An `int` that is not negative -/
def int (n : Nat) : Option Nat :=
  if n ≤ 2147483647 then some n else none

def mul (a b : Nat) : Option Nat :=
  int (a * b)

/-
  The nearest of 16 levels; a difference that is negative is
  not above 8.
-/
def alpha8to4 (a8 : Byte) : Nat :=
  let a := a8.toNat
  let a4 := a >>> 4 &&& 0x0f
  let v := a4 <<< 4 ||| a4
  if a - v > 8 then a4 + 1
  else if v - a > 8 then a4 - 1
  else a4

/- A level in both halves of a byte -/
def expand (level : Nat) : Byte :=
  BitVec.ofNat 8 (level ||| level <<< 4)

/- The bytes of a word, the low ones first -/
def word (n v : Nat) : List Byte :=
  (List.range n).map fun i => BitVec.ofNat 8 (v / 256 ^ i)

def ofWord : List Byte → Nat
  | [] => 0
  | b :: bs => b.toNat + 256 * ofWord bs

def readWord (m : List Byte) (pos n : Nat) : Option Nat :=
  (Block.read m pos n).map ofWord

/- `expand_bitmap`, a row of it -/
def expandRow (w : Nat) (s : List Byte) : List Byte :=
  (List.range w).map fun x =>
    if ((s.getD (x / 8) 0).toNat >>> (7 - x % 8)) &&& 1 = 1
    then 0xff else 0x00

def expandBitmap (src : List Byte) (pitch w h : Nat) (dst : List Byte) : Option (List Byte) :=
  (List.range h).foldlM
    (fun dst y => do
      let at' ← mul y w
      let from' ← mul y pitch
      let s ← Block.read src from' ((w + 7) / 8)
      Block.write dst at' (expandRow w s)) dst

---
-- Runs of Levels
---

/-
  The scratch buffer up to `p`, the entry of the jump table
  for the row, and the span that is being made
-/
structure Spans where
  p : List Byte
  pos : Nat
  spanval : Nat
  spanlen : Nat
  spannum : Nat

def Spans.new (p : List Byte) : Spans where
  p := p
  pos := p.length
  spanval := 0
  spanlen := 0
  spannum := 0

/- `SPAN_ADD`, of the span that was made -/
def spanAdd (room : Nat) (r : Spans) : Option Spans :=
  if r.p.length < room then
    some
      { r with
        p := r.p ++
          [BitVec.ofNat 8 ((r.spanlen - 1) <<< 4 ||| r.spanval)]
        pos := r.pos + 1
        spannum := r.spannum + 1 }
  else
    none

def spanPixel (room : Nat) (r : Spans) (pix : Byte) : Option Spans :=
  let v := alpha8to4 pix
  if v ≠ r.spanval ∨ 16 ≤ r.spanlen then do
    let r ← if 0 < r.spanlen then spanAdd room r else some r
    some { r with spanval := v, spanlen := 1 }
  else
    some { r with spanlen := r.spanlen + 1 }

/- The spans of level 0 at the end of a row are deleted. -/
def spanTrim : (spannum pos : Nat) → List Byte → Option (Nat × List Byte)
  | 0, pos, p => some (pos, p)
  | n + 1, pos, p => do
    let last ← p.getLast?
    if last.toNat &&& 0x0f = 0 then
      spanTrim n (pos - 1) p.dropLast
    else
      some (pos, p)

/- A row: its entry of the jump table, and the scratch buffer -/
def spanRow (room : Nat) (pix p : List Byte) : Option (Nat × List Byte) := do
  let r ← pix.foldlM (spanPixel room) (.new p)
  let r ← if 0 < r.spanlen ∧ 0 < r.spanval then spanAdd room r
    else some r
  spanTrim r.spannum r.pos r.p

def spanRows (src : List Byte) (pitch w h room : Nat) : Option (List Nat × List Byte) :=
  (List.range h).foldlM
    (fun (jumptab, p) y => do
      let from' ← mul y pitch
      let pix ← Block.read src from' w
      let (pos, p) ← spanRow room pix p
      some (jumptab ++ [pos], p)) ([], [])

/- The bytes of an entry of the jump table, and the header -/
def jumpWidth (total : Nat) : Nat :=
  if 65535 < total then 4 else if 255 < total then 2 else 1

def jumpHeader (total : Nat) : Nat :=
  if 65535 < total then 3 else if 255 < total then 2 else 1

/- `compress_rle4` -/
def compressRle4 (junk : Nat → Byte) (src : List Byte) (pitch w h : Nat) :
    Option (List Byte) := do
  let room ← mul pitch h
  let room ← mul room 2
  let (jumptab, scratch) ← spanRows src pitch w h room
  let total := scratch.length
  let width := jumpWidth total
  let table ← mul h width
  let size ← int (4 + total + table)
  let buf := Block.fresh junk size
  let buf ← Block.write buf 0 (word 4 (jumpHeader total))
  let buf ← (List.range h).foldlM
    (fun buf y => do
      let pos ← jumptab[y]?
      Block.write buf (4 + width * y) (word width pos)) buf
  Block.write buf (4 + table) scratch

/- A run; one of level 0 is skipped. -/
def drawRun (d len : Nat) (val : Byte) (dst : List Byte) : Option (List Byte) :=
  if val = 0 then some dst
  else Block.write dst d (List.replicate len val)

/-
  `decompress_full_row`, with how many bytes `p` is before
  `e`
-/
def fullRow (src : List Byte) : Nat → Int → Nat → List Byte → Option (List Byte)
  | 0, _, _, dst => some dst
  | n + 1, p, d, dst => do
    let b ← readAt src p
    let len := (b.toNat >>> 4) + 1
    let dst ← drawRun d len (expand (b.toNat &&& 0x0f)) dst
    fullRow src n (p + 1) (d + len) dst

/- An entry of the jump table; that of 4 bytes is an `int`. -/
def jumpEntry (src : List Byte) (width y : Nat) : Option Int := do
  let v ← readWord src (4 + width * y) width
  some (if width = 4 then CInt.wrap v else v)

/- Where the spans of a row start -/
def jumpStart (src : List Byte) (width : Nat) : Nat → Option Int
  | 0 => some 0
  | y + 1 => jumpEntry src width y

/- `decompress_jumptab8_rle4`, `…16_rle4` and `…32_rle4` -/
def decompressJumptab (width : Nat) (src : List Byte) (pitch h : Nat)
    (dst : List Byte) : Option (List Byte) :=
  (List.range h).foldlM
    (fun dst y => do
      let start ← jumpStart src width y
      let last ← jumpEntry src width y
      let to' ← mul y pitch
      fullRow src (last - start).toNat
        (4 + h * width + start) to' dst) dst

/- `decompress_rle4` -/
def decompressRle4 (src : List Byte) (pitch h : Nat) (dst : List Byte) : Option (List Byte) := do
  let header ← readWord src 0 4
  if header = 1 then decompressJumptab 1 src pitch h dst
  else if header = 2 then decompressJumptab 2 src pitch h dst
  else if header = 3 then decompressJumptab 4 src pitch h dst
  else some dst

---
-- Packed Levels
---

/- A row, two levels a byte; a pixel that is left is cut off. -/
def packRow : List Byte → List Byte
  | s₀ :: s₁ :: s =>
    BitVec.ofNat 8 (alpha8to4 s₀ <<< 4 ||| alpha8to4 s₁) ::
      packRow s
  | [s₀] => [s₀ &&& 0xf0]
  | [] => []

/- `compress_bpp4` -/
def compressBpp4 (junk : Nat → Byte) (src : List Byte) (pitch w h : Nat) :
    Option (List Byte) := do
  let pitch2 := (w + 1) / 2
  let body ← mul pitch2 h
  let buf := Block.fresh junk (4 + body)
  let buf ← Block.write buf 0 (word 4 0)
  (List.range h).foldlM
    (fun buf y => do
      let from' ← mul y pitch
      let to' ← mul y pitch2
      let s ← Block.read src from' w
      Block.write buf (4 + to') (packRow s)) buf

/- A row of `w` pixels -/
def unpackRow : Nat → List Byte → List Byte
  | w + 2, s :: rest =>
    expand (s.toNat >>> 4) :: expand (s.toNat &&& 0x0f) ::
      unpackRow w rest
  | 1, s :: _ => [expand (s.toNat >>> 4)]
  | _, _ => []

/- `decompress_bpp4` -/
def decompressBpp4 (src : List Byte) (pitch w h : Nat) (dst : List Byte) : Option (List Byte) :=
  let pitch2 := (w + 1) / 2
  (List.range h).foldlM
    (fun dst y => do
      let from' ← mul y pitch2
      let to' ← mul y pitch
      let s ← Block.read src (4 + from') pitch2
      Block.write dst to' (unpackRow w s)) dst

---
-- Glyphs
---

/-
  `evas_common_font_glyph_compress`; `grey` is that the glyph
  has 256 grey levels.
-/
def glyphCompress (junk : Nat → Byte) (grey : Bool)
    (data : List Byte) (pitchData w h : Nat) : Option (List Byte) :=
  if h < 1 ∨ pitchData < 1 then
    none
  else do
    let size ← mul w h
    let pitch := if grey then pitchData else w
    let inbuf ← if grey then some data
      else expandBitmap data pitchData w h (Block.fresh junk size)
    if size < 16 * 16 then compressBpp4 junk inbuf pitch w h
    else compressRle4 junk inbuf pitch w h

/-
  `evas_common_font_glyph_uncompress`; the width and the rows
  are of 16 bits.  The header is an `int`.
-/
def glyphUncompress (rle : List Byte) (width rows : BitVec 16) : Option (List Byte) := do
  let w := width.toNat
  let h := rows.toNat
  let size ← mul w h
  let buf : List Byte := List.replicate size 0
  let header ← readWord rle 0 4
  if 0 < header ∧ header < 2147483648 then
    decompressRle4 rle w h buf
  else
    decompressBpp4 rle w w h buf

/- A glyph of 256 grey levels, as it is drawn -/
def roundTrip (junk : Nat → Byte) (data : List Byte) (pitch w h : Nat) : Option (List Byte) := do
  let rle ← glyphCompress junk true data pitch w h
  glyphUncompress rle (BitVec.ofNat 16 w) (BitVec.ofNat 16 h)

end Efl.Evas.FontCompress
