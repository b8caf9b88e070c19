import Efl.Lib.Block
import Efl.Lib.Bytes
import Efl.Lib.CInt

/-
  The TGA loader, `evas_image_load_tga.c`.

  Pointers into the file and into the surface are distances
  from their starts.  A read or a write outside of them is
  `none`.  The file could be mapped.

  Main declarations:
    * `Tga.Header`, `Tga.Header.Accepted`
    * `Tga.rows`, `Tga.packets`, `Tga.flip`
-/

---
-- Header and Footer
---

namespace Efl.Evas.Tga

open Bytes

/- `tga_header` -/
structure Header where
  idLength : Byte
  colorMapType : Byte
  imageType : Byte
  colorMapSize : Byte
  xOriginLo : Byte
  xOriginHi : Byte
  yOriginLo : Byte
  yOriginHi : Byte
  widthLo : Byte
  widthHi : Byte
  heightLo : Byte
  heightHi : Byte
  bpp : Byte
  descriptor : Byte
  deriving DecidableEq

/- `sizeof(tga_header)` and `sizeof(tga_footer)` -/
def headerSize : Nat := 18

def footerSize : Nat := 26

def header (file : List Byte) : Option Header := do
  let idLength ← file[0]?
  let colorMapType ← file[1]?
  let imageType ← file[2]?
  let colorMapSize ← file[7]?
  let xOriginLo ← file[8]?
  let xOriginHi ← file[9]?
  let yOriginLo ← file[10]?
  let yOriginHi ← file[11]?
  let widthLo ← file[12]?
  let widthHi ← file[13]?
  let heightLo ← file[14]?
  let heightHi ← file[15]?
  let bpp ← file[16]?
  let descriptor ← file[17]?
  some
    { idLength, colorMapType, imageType, colorMapSize,
      xOriginLo, xOriginHi, yOriginLo, yOriginHi,
      widthLo, widthHi, heightLo, heightHi,
      bpp, descriptor }

/- `TGA_SIGNATURE` -/
def signature : List Byte :=
  "TRUEVISION-XFILE".toList.map fun c =>
    BitVec.ofNat 8 c.toNat

/- The footer is copied before it is looked at. -/
def footerPresent (file : List Byte) : Option Bool :=
  (Block.read file (file.length - footerSize) footerSize).map
    fun tfooter =>
      (tfooter.drop 8).take 16 == signature &&
        tfooter[24]? == some 0x2e && tfooter[25]? == some 0

namespace Header

variable (hd : Header)

def x : Nat :=
  hd.xOriginHi.toNat <<< 8 ||| hd.xOriginLo.toNat

def y : Nat :=
  hd.yOriginHi.toNat <<< 8 ||| hd.yOriginLo.toNat

def w : Nat :=
  hd.widthHi.toNat <<< 8 ||| hd.widthLo.toNat

def h : Nat :=
  hd.heightHi.toNat <<< 8 ||| hd.heightLo.toNat

/- `header->descriptor & TGA_DESC_ABITS` -/
def abits : Nat :=
  hd.descriptor.toNat &&& 0x0f

def hasa : Bool :=
  (hd.bpp = 32 ∨ hd.bpp = 16) ∧ hd.abits ≠ 0

def vinverted : Bool :=
  hd.descriptor &&& 0x20 = 0

/- `TGA_TYPE_COLOR_RLE` and `TGA_TYPE_GRAY_RLE` -/
def rle : Bool :=
  hd.imageType = 10 ∨ hd.imageType = 11

/- None of the tests of both functions goes to `close_file`. -/
def Accepted : Prop :=
  (hd.rle ∨ hd.imageType = 2 ∨ hd.imageType = 3) ∧
    (hd.bpp = 32 ∨ hd.bpp = 24 ∨ hd.bpp = 16 ∨ hd.bpp = 8) ∧
    hd.colorMapType = 0 ∧
    (hd.colorMapSize = 0 ∨ hd.colorMapSize = 15 ∨
      hd.colorMapSize = 16 ∨ hd.colorMapSize = 24 ∨
      hd.colorMapSize = 32) ∧
    (hd.x < hd.w ∧ hd.y < hd.h) ∧
    hd.descriptor &&& 0xc0 = 0 ∧
    (1 ≤ hd.w ∧ 1 ≤ hd.h ∧ hd.w ≤ 65000 ∧ hd.h ≤ 65000 ∧
      hd.w * hd.h < 2 ^ 58 - 2048)

instance : Decidable hd.Accepted :=
  inferInstanceAs (Decidable (_ ∧ _ ∧ _ ∧ _ ∧ _ ∧ _ ∧ _))

end Header

---
-- Pixels
---

/- `ARGB_JOIN` -/
def argbJoin (a r g b : Word) : Word :=
  (a <<< 24) + (r <<< 16) + (g <<< 8) + b

/- The alpha value spread to eight bits; each case goes on. -/
def spread (abits : Nat) (a : Word) : Word :=
  let from_ := fun k => decide (1 ≤ abits ∧ abits ≤ k)
  let a := if from_ 1 then
    a <<< 7 ||| a <<< 6 ||| a <<< 5 ||| a <<< 4 |||
      a <<< 3 ||| a <<< 2 ||| a <<< 1 ||| a else a
  let a := if from_ 2 then
    a <<< 6 ||| a <<< 4 ||| a <<< 2 ||| a else a
  let a := if from_ 3 then
    a <<< 5 ||| a <<< 2 ||| a.sshiftRight 1 else a
  let a := if from_ 4 then a <<< 4 ||| a else a
  let a := if from_ 5 then
    a <<< 3 ||| a.sshiftRight 2 else a
  let a := if from_ 6 then
    a <<< 2 ||| a.sshiftRight 4 else a
  if from_ 7 then a <<< 1 ||| a.sshiftRight 6 else a

/- How the pixels of a file lie in it, and are read. -/
structure Format where
  size : Nat
  pixel : List Byte → Nat → Option Word

def byte (file : List Byte) (p : Nat) : Option Word :=
  file[p]?.map fun b => b.setWidth 32

def pixel24 (file : List Byte) (p : Nat) : Option Word := do
  let r ← byte file (p + 2)
  let g ← byte file (p + 1)
  let b ← byte file p
  some (argbJoin 0xff r g b)

/- The fourth byte is read whenever `reads` says so. -/
def pixel32 (reads hasa : Bool) (alpha : Word → Word)
    (file : List Byte) (p : Nat) : Option Word :=
  if reads then do
    let a ← byte file (p + 3)
    let r ← byte file (p + 2)
    let g ← byte file (p + 1)
    let b ← byte file p
    some (argbJoin (if hasa then alpha a else 0xff) r g b)
  else
    pixel24 file p

def pixel16 (hasa : Bool) (file : List Byte) (p : Nat) : Option Word := do
  let hi ← byte file (p + 1)
  let lo ← byte file p
  let tmp := hi <<< 8 ||| lo
  let r := tmp >>> 7 &&& 0xf8
  let g := tmp >>> 2 &&& 0xf8
  let b := tmp <<< 3 &&& 0xf8
  let a := if hasa ∧ tmp &&& 0x8000 ≠ 0 then 0 else 0xff
  some (argbJoin a (r ||| r >>> 5) (g ||| g >>> 5)
    (b ||| b >>> 5))

def pixel8 (file : List Byte) (p : Nat) : Option Word := do
  let g ← byte file p
  some (argbJoin 0xff g g g)

/- The four cases of `switch (bpp)`. -/
def format (hd : Header) (reads : Bool) (alpha : Word → Word) : Format :=
  if hd.bpp = 32 then ⟨4, pixel32 reads hd.hasa alpha⟩
  else if hd.bpp = 24 then ⟨3, pixel24⟩
  else if hd.bpp = 16 then ⟨2, pixel16 hd.hasa⟩
  else ⟨1, pixel8⟩

/- Pixels of a file without packets -/
def plain (hd : Header) : Format :=
  format hd hd.hasa (spread hd.abits)

/- The pixel of a packet that repeats it -/
def run (hd : Header) : Format :=
  format hd true (spread hd.abits)

/- Pixels of a packet that lists them -/
def raw (hd : Header) : Format :=
  format hd hd.hasa id

/- The bytes that a loop over a row asks for. -/
def need (hd : Header) : Nat :=
  if hd.bpp = 16 then 3 else (plain hd).size

---
-- Files without Packets
---

open CInt

/- `surface[i]` -/
def get (surface : List Word) (i : Int) : Option Word :=
  if 0 ≤ i then surface[i.toNat]? else none

/- `surface[i] = v` -/
def put (surface : List Word) (i : Int) (v : Word) : Option (List Word) :=
  if 0 ≤ i ∧ i < surface.length then
    some (surface.set i.toNat v)
  else
    none

/- `datasize`, an `unsigned int` -/
def datasize (file : List Byte) (hd : Header) (present : Bool) : Nat :=
  let size : Int := file.length
  let left := size - headerSize - hd.idLength.toNat
  let left := if present then left - footerSize else left
  (left % 4294967296).toNat

/- `bufend` -/
def bufend (file : List Byte) (hd : Header) (present : Bool) : Nat :=
  headerSize + datasize file hd present

/- `bufptr` in the beginning -/
def start (hd : Header) : Nat :=
  headerSize + hd.idLength.toNat

/- The loop over one row; `n` pixels of it are left. -/
def row (file : List Byte) (hd : Header) (bufend : Nat) :
    Nat → Nat → Int → List Word → Option (Nat × List Word)
  | 0, bufptr, _, surface => some (bufptr, surface)
  | n + 1, bufptr, dataptr, surface =>
    if bufptr + need hd ≤ bufend then do
      let v ← (plain hd).pixel file bufptr
      let surface ← put surface dataptr v
      row file hd bufend n (bufptr + (plain hd).size)
        (dataptr + 1) surface
    else
      some (bufptr, surface)

/- The line of the picture that row `y` of the file is. -/
def line (hd : Header) (y : Nat) : Nat :=
  if hd.vinverted then hd.h - y - 1 else y

/- The loop over the rows; `n` of them are left. -/
def rows (file : List Byte) (hd : Header) (bufend : Nat) :
    Nat → Nat → List Word → Option (List Word)
  | 0, _, surface => some surface
  | n + 1, bufptr, surface => do
    let dataptr := wrap (line hd (hd.h - (n + 1)) * hd.w)
    let (bufptr, surface) ←
      row file hd bufend hd.w bufptr dataptr surface
    rows file hd bufend n bufptr surface

---
-- Files with Packets
---

/- Repeat one pixel. -/
def fill (v : Word) (dataend : Int) : Nat → Int → List Word → Option (Int × List Word)
  | 0, dataptr, surface => some (dataptr, surface)
  | n + 1, dataptr, surface =>
    if dataptr < dataend then do
      let surface ← put surface dataptr v
      fill v dataend n (dataptr + 1) surface
    else
      some (dataptr, surface)

/- Copy pixels. -/
def copy (file : List Byte) (f : Format) (bufend : Nat) (dataend : Int) :
    Nat → Nat → Int → List Word →
      Option (Nat × Int × List Word)
  | 0, bufptr, dataptr, surface => some (bufptr, dataptr, surface)
  | n + 1, bufptr, dataptr, surface =>
    if bufptr < bufend - f.size ∧ dataptr < dataend then do
      let v ← f.pixel file bufptr
      let surface ← put surface dataptr v
      copy file f bufend dataend n (bufptr + f.size)
        (dataptr + 1) surface
    else
      some (bufptr, dataptr, surface)

/- The pixels of a packet, and whether it repeats one -/
def count (val : Byte) : Nat :=
  (val &&& 0x7f).toNat + 1

def repeats (val : Byte) : Bool :=
  val &&& 0x80 ≠ 0

/- One packet, after its first byte. -/
def packet (file : List Byte) (hd : Header) (bufend : Nat)
    (dataend : Int) (val : Byte) (bufptr : Nat) (dataptr : Int)
    (surface : List Word) : Option (Nat × Int × List Word) :=
  if repeats val then
    if bufptr < bufend - (run hd).size then do
      let v ← (run hd).pixel file bufptr
      let (dataptr, surface) ←
        fill v dataend (count val) dataptr surface
      some (bufptr + (run hd).size, dataptr, surface)
    else
      some (bufptr, dataptr, surface)
  else
    copy file (raw hd) bufend dataend (count val) bufptr
      dataptr surface

/- The loop over the packets. -/
def packets (file : List Byte) (hd : Header) (bufend : Nat) (dataend : Int) :
    Nat → Nat → Int → List Word → Option (List Word)
  | 0, _, _, _ => none
  | fuel + 1, bufptr, dataptr, surface =>
    if bufptr < bufend ∧ dataptr < dataend then do
      let val ← file[bufptr]?
      let (bufptr, dataptr, surface) ←
        packet file hd bufend dataend val (bufptr + 1)
          dataptr surface
      packets file hd bufend dataend fuel bufptr dataptr
        surface
    else
      some surface

/- Exchange two rows; `n` pixels are left. -/
def swapRows (adv adv2 : Int) : Nat → List Word → Option (List Word)
  | 0, surface => some surface
  | n + 1, surface => do
    let tmp ← get surface adv
    let v ← get surface adv2
    let surface ← put surface adv v
    let surface ← put surface adv2 tmp
    swapRows (adv + 1) (adv2 + 1) n surface

/- The loop that turns the picture; `n` rows are left. -/
def flip (w : Nat) : Nat → Int → Int → List Word → Option (List Word)
  | 0, _, _, surface => some surface
  | n + 1, adv, adv2, surface => do
    let surface ← swapRows adv adv2 w surface
    flip w n (adv + w) (adv2 - w) surface

---
-- The Loader
---

/- What of `Evas_Image_Property` the loader reads or sets. -/
structure Property where
  w : Nat
  h : Nat
  alpha : Bool
  premul : Bool
  deriving DecidableEq

/- The `EVAS_LOAD_ERROR_` constants. -/
inductive LoadError where
  | none
  | generic
  | unknownFormat
  | corruptFile
  deriving DecidableEq

/- The pixels of a header that is accepted. -/
def decode (file : List Byte) (hd : Header) (present : Bool)
    (surface : List Word) : Option (List Word) :=
  let stop := bufend file hd present
  if hd.rle then do
    let dataend := wrap (hd.w * hd.h)
    let surface ←
      packets file hd stop dataend (stop + 1) (start hd) 0
        surface
    if hd.vinverted then
      flip hd.w (hd.h / 2) 0 (wrap (hd.w * (hd.h - 1 : Nat)))
        surface
    else
      some surface
  else
    rows file hd stop hd.h (start hd) surface

/- `evas_image_load_file_head_tga` -/
def head (file : List Byte) (prop : Property) : Option (Property × LoadError) :=
  if file.length < headerSize + footerSize then
    some (prop, .unknownFormat)
  else do
    let hd ← header file
    let present ← footerPresent file
    if hd.Accepted then
      some
        ({ prop with
            w := hd.w
            h := hd.h
            alpha := hd.hasa || prop.alpha }, .none)
    else
      some (prop,
        if present then .corruptFile else .unknownFormat)

/- `evas_image_load_file_data_tga` -/
def data (file : List Byte) (prop : Property) (surface : List Word) :
    Option (Property × List Word × LoadError) :=
  if file.length < headerSize + footerSize then
    some (prop, surface, .unknownFormat)
  else do
    let hd ← header file
    let present ← footerPresent file
    if hd.Accepted then
      if hd.w = prop.w ∧ hd.h = prop.h then do
        let surface ← decode file hd present surface
        some ({ prop with premul := true }, surface, .none)
      else
        some (prop, surface, .generic)
    else
      some (prop, surface,
        if present then .corruptFile else .unknownFormat)

end Efl.Evas.Tga
