import Efl.Evas.Tga.Model

/-
  What the loops of the TGA loader read and write.

  The loops over rows stop before a pixel that does not fit.
  The loop over packets is safe when the bytes end in the
  file; when they end far behind it, no test stops the loop
  before the file ends.

  Main declarations:
    * `Tga.used`
    * `Tga.PacketsFit`
    * `Tga.rows_iff`, `Tga.flip_iff`
    * `Tga.packets_inside`
-/

---
-- Pixels
---

namespace Efl.Evas.Tga

open Bytes Option

/- The bytes of a pixel that are read. -/
def used (hd : Header) (reads : Bool) : Nat :=
  if hd.bpp = 32 then if reads then 4 else 3
  else (plain hd).size

theorem byte_isSome (file : List Byte) (p : Nat) :
    (∃ v, byte file p = some v) ↔ p < file.length := by
  unfold byte
  rw [← isSome_iff_exists, isSome_map, isSome_getElem?]

variable {file : List Byte}

theorem byte_of_lt {p : Nat} (hLt : p < file.length) :
    ∃ v, byte file p = some v := (byte_isSome file p).mpr hLt

theorem pixel24_isSome (file : List Byte) (p : Nat) :
    (∃ v, pixel24 file p = some v) ↔ p + 3 ≤ file.length := by
  unfold pixel24
  constructor
  · rintro ⟨v, hPixel⟩
    rw [bind_eq_bind, bind_eq_some_iff] at hPixel
    rcases hPixel with ⟨r, hR, -⟩
    exact (byte_isSome file (p + 2)).mp ⟨r, hR⟩
  · intro hFits
    rcases byte_of_lt (show p + 2 < file.length by omega) with ⟨r, hR⟩
    rcases byte_of_lt (show p + 1 < file.length by omega) with ⟨g, hG⟩
    rcases byte_of_lt (show p < file.length by omega) with ⟨b, hB⟩
    rw [hR, hG, hB]
    exact ⟨_, rfl⟩

theorem pixel32_isSome (reads hasa : Bool) (alpha : Word → Word)
    (file : List Byte) (p : Nat) :
    (∃ v, pixel32 reads hasa alpha file p = some v) ↔
      p + (if reads then 4 else 3) ≤ file.length := by
  unfold pixel32
  cases reads with
  | false => exact pixel24_isSome file p
  | true =>
    simp only [if_true]
    constructor
    · rintro ⟨v, hPixel⟩
      rw [bind_eq_bind, bind_eq_some_iff] at hPixel
      rcases hPixel with ⟨a, hA, -⟩
      exact (byte_isSome file (p + 3)).mp ⟨a, hA⟩
    · intro hFits
      rcases byte_of_lt (show p + 3 < file.length by omega) with ⟨a, hA⟩
      rcases byte_of_lt (show p + 2 < file.length by omega) with ⟨r, hR⟩
      rcases byte_of_lt (show p + 1 < file.length by omega) with ⟨g, hG⟩
      rcases byte_of_lt (show p < file.length by omega) with ⟨b, hB⟩
      rw [hA, hR, hG, hB]
      exact ⟨_, rfl⟩

theorem pixel16_isSome (hasa : Bool) (file : List Byte) (p : Nat) :
    (∃ v, pixel16 hasa file p = some v) ↔ p + 2 ≤ file.length := by
  unfold pixel16
  constructor
  · rintro ⟨v, hPixel⟩
    rw [bind_eq_bind, bind_eq_some_iff] at hPixel
    rcases hPixel with ⟨hi, hHi, -⟩
    exact (byte_isSome file (p + 1)).mp ⟨hi, hHi⟩
  · intro hFits
    rcases byte_of_lt (show p + 1 < file.length by omega) with ⟨hi, hHi⟩
    rcases byte_of_lt (show p < file.length by omega) with ⟨lo, hLo⟩
    rw [hHi, hLo]
    exact ⟨_, rfl⟩

theorem pixel8_isSome (file : List Byte) (p : Nat) :
    (∃ v, pixel8 file p = some v) ↔ p + 1 ≤ file.length := by
  unfold pixel8
  change _ ↔ p < file.length
  rw [← byte_isSome]
  constructor
  · rintro ⟨v, hPixel⟩
    rw [bind_eq_bind, bind_eq_some_iff] at hPixel
    rcases hPixel with ⟨g, hG, -⟩
    exact ⟨g, hG⟩
  · rintro ⟨g, hG⟩
    rw [hG]
    exact ⟨_, rfl⟩

/- A pixel is read when the bytes of it are in the file. -/
theorem format_isSome (hd : Header) (reads : Bool) (alpha : Word → Word)
    (file : List Byte) (p : Nat) :
    (∃ v, (format hd reads alpha).pixel file p = some v) ↔ p + used hd reads ≤ file.length := by
  unfold used plain format
  by_cases h32 : hd.bpp = 32
  · rw [if_pos h32, if_pos h32]
    exact pixel32_isSome _ _ _ _ _
  · rw [if_neg h32, if_neg h32, if_neg h32]
    by_cases h24 : hd.bpp = 24
    · rw [if_pos h24]
      exact pixel24_isSome _ _
    · rw [if_neg h24]
      by_cases h16 : hd.bpp = 16
      · rw [if_pos h16]
        exact pixel16_isSome _ _ _
      · rw [if_neg h16]
        exact pixel8_isSome _ _

theorem format_eq_none {hd : Header} {reads : Bool} {alpha : Word → Word} {p : Nat}
    (hOut : ¬ p + used hd reads ≤ file.length) : (format hd reads alpha).pixel file p = none := by
  rw [eq_none_iff_forall_ne_some]
  intro v hPixel
  exact hOut ((format_isSome hd reads alpha file p).mp ⟨v, hPixel⟩)

/- All formats of a header have the size of the plain one. -/
theorem format_size (hd : Header) (reads : Bool) (alpha : Word → Word) :
    (format hd reads alpha).size = (plain hd).size := by
  unfold plain format
  split
  · rfl
  · split
    · rfl
    · split <;> rfl

theorem size_bounds (hd : Header) : 1 ≤ (plain hd).size ∧ (plain hd).size ≤ 4 := by
  unfold plain format
  by_cases h32 : hd.bpp = 32
  · simp [h32]
  · rw [if_neg h32]
    by_cases h24 : hd.bpp = 24
    · simp [h24]
    · rw [if_neg h24]
      by_cases h16 : hd.bpp = 16
      · simp [h16]
      · rw [if_neg h16]
        exact ⟨le_refl _, Nat.le_add_left 1 3⟩

theorem used_bounds (hd : Header) (reads : Bool) :
    1 ≤ used hd reads ∧ used hd reads ≤ (plain hd).size ∧ (plain hd).size ≤ used hd reads + 1 := by
  have hSize := size_bounds hd
  unfold used
  split
  case isFalse => omega
  case isTrue h32 =>
      have h4 : (plain hd).size = 4 := by
        unfold plain format
        rw [if_pos h32]
      split <;> omega

theorem used_true (hd : Header) : used hd true = (plain hd).size := by
  unfold used plain format
  split
  · rfl
  · rfl

/- A loop over a row asks for what it reads, or more. -/
theorem need_bounds (hd : Header) : (plain hd).size ≤ need hd ∧ need hd ≤ 4 := by
  have hSize := size_bounds hd
  unfold need
  split
  case isFalse => omega
  case isTrue h16 =>
      have hTwo : (plain hd).size = 2 := by
        unfold plain format
        rw [h16]
        rfl
      omega

---
-- Rows
---

open CInt List

variable {surface : List Word}

theorem length_put {out : List Word} {i : Int} {v : Word}
    (hPut : put surface i v = some out) : out.length = surface.length := by
  unfold put at hPut
  split at hPut
  case isTrue =>
    obtain rfl := some.inj hPut
    exact length_set
  case isFalse => exact nomatch hPut

theorem put_of_mem {i : Int} (surface : List Word) (v : Word)
    (hLow : 0 ≤ i) (hHigh : i < surface.length) :
    ∃ out, put surface i v = some out ∧
      out.length = surface.length := ⟨_, if_pos ⟨hLow, hHigh⟩, length_set⟩

/- A row is decoded when each pixel with room is in both. -/
theorem row_iff {hd : Header} {stop : Nat} (n bufptr : Nat)
    (dataptr : Int) (surface : List Word) :
    (∃ out, row file hd stop n bufptr dataptr surface =
        some out) ↔
      ∀ i < n, bufptr + (plain hd).size * i + need hd ≤ stop →
        bufptr + (plain hd).size * i + used hd hd.hasa ≤ file.length ∧
        0 ≤ dataptr + i ∧ dataptr + i < surface.length := by
  induction n generalizing bufptr dataptr surface with
  | zero =>
    exact ⟨fun _ i hLt => absurd hLt (Nat.not_lt_zero i), fun _ => ⟨_, rfl⟩⟩
  | succ n ih =>
    unfold row
    by_cases hRoom : bufptr + need hd ≤ stop
    · rw [if_pos hRoom]
      constructor
      · rintro ⟨out, hRow⟩ i hLt hIn
        rw [bind_eq_bind, bind_eq_some_iff] at hRow
        rcases hRow with ⟨v, hPixel, hRow⟩
        rw [bind_eq_bind, bind_eq_some_iff] at hRow
        rcases hRow with ⟨surface', hPut, hRow⟩
        have hUsed := (format_isSome hd hd.hasa _ file bufptr).mp ⟨v, hPixel⟩
        have hLength := length_put hPut
        cases i with
        | zero =>
          unfold put at hPut
          split at hPut
          case isTrue hMem =>
            refine ⟨by omega, ?_, ?_⟩
            · rw [Int.natCast_zero, Int.add_zero]
              exact hMem.1
            · rw [Int.natCast_zero, Int.add_zero]
              exact hMem.2
          case isFalse => exact nomatch hPut
        | succ i =>
          rw [Nat.mul_add_one] at hIn ⊢
          have hRest := (ih _ _ _).mp ⟨out, hRow⟩ i (Nat.lt_of_succ_lt_succ hLt) (by omega)
          rw [hLength] at hRest
          omega
      · intro hAll
        rcases hAll 0 (Nat.succ_pos n) hRoom with ⟨hUsed, hLow, hHigh⟩
        rw [Int.natCast_zero, Int.add_zero] at hLow hHigh
        rcases (format_isSome hd hd.hasa (spread hd.abits) file bufptr).mpr hUsed with ⟨v, hPixel⟩
        rcases put_of_mem surface v hLow hHigh with ⟨surface', hPut, hLength⟩
        rcases (ih (bufptr + (plain hd).size) (dataptr + 1)
          surface').mpr (by
            intro i hLt hIn
            have hNext := hAll (i + 1) (Nat.succ_lt_succ hLt)
            rw [Nat.mul_add_one] at hNext
            rw [hLength]
            have := hNext (by omega)
            push_cast at this
            omega) with ⟨out, hRow⟩
        refine ⟨out, ?_⟩
        change ((plain hd).pixel file bufptr).bind _ = _
        rw [show (plain hd).pixel file bufptr = some v from hPixel, bind_some]
        change (put surface dataptr v).bind _ = _
        rw [hPut, bind_some]
        exact hRow
    · rw [if_neg hRoom]
      refine ⟨fun _ i _ hIn => ?_, fun _ => ⟨_, rfl⟩⟩
      exact absurd hIn (by omega)

/- Where a row ends, and that the surface keeps its size. -/
theorem row_end {hd : Header} {stop : Nat} {n bufptr : Nat} {dataptr : Int} {out : Nat × List Word}
    (hRow : row file hd stop n bufptr dataptr surface = some out) :
    out.2.length = surface.length ∧
      (out.1 = bufptr + (plain hd).size * n ∨ stop < out.1 + need hd ∧
      out.1 ≤ bufptr + (plain hd).size * n) := by
  induction n generalizing bufptr dataptr surface with
  | zero =>
    obtain rfl := some.inj hRow
    exact ⟨rfl, Or.inl rfl⟩
  | succ n ih =>
    unfold row at hRow
    split at hRow
    case isTrue =>
      rw [bind_eq_bind, bind_eq_some_iff] at hRow
      rcases hRow with ⟨v, -, hRow⟩
      rw [bind_eq_bind, bind_eq_some_iff] at hRow
      rcases hRow with ⟨surface', hPut, hRow⟩
      rcases ih hRow with ⟨hLength, hEnd⟩
      rw [Nat.mul_add_one]
      exact ⟨hLength.trans (length_put hPut), by omega⟩
    case isFalse hFull =>
      obtain rfl := some.inj hRow
      exact ⟨rfl, Or.inr ⟨by omega, Nat.le_add_right _ _⟩⟩

/-
  All rows are decoded when each pixel with room is in both;
  pixel `i` of row `j`, of the ones that are left.
-/
theorem rows_iff {hd : Header} {stop : Nat} {n : Nat} (bufptr : Nat)
    (surface : List Word) (hLe : n ≤ hd.h) :
    (∃ out, rows file hd stop n bufptr surface = some out) ↔
      ∀ j < n, ∀ i < hd.w, bufptr + (plain hd).size *
        (hd.w * j + i) + need hd ≤ stop → bufptr + (plain hd).size *
        (hd.w * j + i) + used hd hd.hasa ≤ file.length ∧
        0 ≤ wrap (line hd (hd.h - n + j) * hd.w) + i ∧
        wrap (line hd (hd.h - n + j) * hd.w) + i < surface.length := by
  induction n generalizing bufptr surface with
  | zero =>
    exact ⟨fun _ j hLt => absurd hLt (Nat.not_lt_zero j), fun _ => ⟨_, rfl⟩⟩
  | succ n ih =>
    -- The rows after a first one that ends at `bufptr'`.
    have hRest : ∀ out : Nat × List Word, row file hd stop hd.w bufptr
      (wrap (line hd (hd.h - (n + 1)) * hd.w)) surface =
        some out →
        ((∃ last, rows file hd stop n out.1 out.2 = some last) ↔
          ∀ j < n, ∀ i < hd.w, bufptr + (plain hd).size * (hd.w * (j + 1) + i) +
            need hd ≤ stop →
            bufptr + (plain hd).size * (hd.w * (j + 1) + i) +
                used hd hd.hasa ≤ file.length ∧
              0 ≤ wrap (line hd (hd.h - n + j) * hd.w) + i ∧
              wrap (line hd (hd.h - n + j) * hd.w) + i < surface.length) := by
      intro out hRow
      rcases row_end hRow with ⟨hLength, hEnd⟩
      rw [ih out.1 out.2 (by omega), hLength]
      refine forall₂_congr fun j hJ => forall₂_congr fun i hI => ?_
      have hSplit : (plain hd).size * (hd.w * (j + 1) + i) =
          (plain hd).size * hd.w + (plain hd).size * (hd.w * j + i) := by
        ring
      rw [hSplit]
      rcases hEnd with hEnd | ⟨hFull, hEnd⟩
      · rw [hEnd, Nat.add_assoc bufptr]
      · constructor
        · intro _ hIn
          exact absurd hIn (by omega)
        · intro _ hIn
          exact absurd hIn (by omega)
    have hFirst := @row_iff file hd stop hd.w bufptr
      (wrap (line hd (hd.h - (n + 1)) * hd.w)) surface
    have hIndex : ∀ j, hd.h - (n + 1) + (j + 1) = hd.h - n + j := by
      omega
    unfold rows
    constructor
    · rintro ⟨last, hRows⟩
      rw [bind_eq_bind, bind_eq_some_iff] at hRows
      rcases hRows with ⟨out, hRow, hRows⟩
      intro j hJ i hI
      cases j with
      | zero =>
        rw [Nat.mul_zero, Nat.zero_add]
        exact hFirst.mp ⟨out, hRow⟩ i hI
      | succ j =>
        rw [hIndex]
        exact (hRest out hRow).mp ⟨last, hRows⟩ j (Nat.lt_of_succ_lt_succ hJ) i hI
    · intro hAll
      rcases hFirst.mpr (by
        intro i hI
        have hZero := hAll 0 (Nat.succ_pos n) i hI
        rw [Nat.mul_zero, Nat.zero_add] at hZero
        exact hZero) with ⟨out, hRow⟩
      rcases (hRest out hRow).mpr (by
        intro j hJ i hI
        have hNext := hAll (j + 1) (Nat.succ_lt_succ hJ) i hI
        rw [hIndex] at hNext
        exact hNext) with ⟨last, hRows⟩
      refine ⟨last, ?_⟩
      change (row file hd stop hd.w bufptr
        (wrap (line hd (hd.h - (n + 1)) * hd.w)) surface).bind _ = _
      rw [hRow, bind_some]
      exact hRows

---
-- Packets
---

/- The pixels that are read from a packet. -/
def taken (val : Byte) (left : Nat) : Nat :=
  if repeats val then 1 else min (count val) left

/- Its bytes, after the first one, that are passed. -/
def packetSize (hd : Header) (val : Byte) (left : Nat) : Nat :=
  (plain hd).size * taken val left

/- The bytes of it that are read. -/
def packetUsed (hd : Header) (val : Byte) (left : Nat) : Nat :=
  (plain hd).size * (taken val left - 1) +
    used hd (hd.hasa || repeats val)

/-
  The packets from a position on, that stand for the pixels
  that are left, are in the file.
-/
inductive PacketsFit (file : List Byte) (hd : Header) : Nat → Nat → Prop where
  | filled (pos : Nat) : PacketsFit file hd pos 0
  | packet {pos left : Nat} {val : Byte}
      (hVal : file[pos]? = some val)
      (hIn : pos + 1 + packetUsed hd val left ≤ file.length)
      (hRest : PacketsFit file hd
        (pos + 1 + packetSize hd val left)
        (left - count val)) :
      PacketsFit file hd pos left

section

variable {file : List Byte} {hd : Header} {stop : Nat} {dataend : Int}

/- Pixels are repeated up to the end of the surface. -/
theorem fill_spec (v : Word) {n left : Nat} {surface : List Word}
    (hLow : 0 ≤ dataend - left) (hEnd : dataend ≤ surface.length) :
    ∃ out, fill v dataend n (dataend - left) surface =
        some (dataend - (left - n : Nat), out) ∧
      out.length = surface.length := by
  induction n generalizing left surface with
  | zero => exact ⟨surface, rfl, rfl⟩
  | succ n ih =>
    unfold fill
    cases left with
    | zero =>
      rw [if_neg (by omega), Nat.zero_sub]
      exact ⟨surface, rfl, rfl⟩
    | succ left =>
      rw [if_pos (by omega)]
      rcases put_of_mem surface v hLow (by omega) with ⟨surface', hPut, hLength⟩
      rcases @ih left surface' (by omega) (by omega) with ⟨out, hFill, hOut⟩
      refine ⟨out, ?_, hOut.trans hLength⟩
      rw [hPut, bind_eq_bind, bind_some,
        show dataend - ((left + 1 : Nat) : Int) + 1 =
          dataend - left by omega, hFill, Nat.succ_sub_succ]

/- Copying stops before the end of the bytes. -/
theorem copy_inside (reads : Bool) (alpha : Word → Word) {n bufptr left : Nat} {surface : List Word}
    (hStop : stop ≤ file.length) (hLow : 0 ≤ dataend - left)
    (hEnd : dataend ≤ surface.length) :
    ∃ bufptr' left' out, copy file (format hd reads alpha) stop dataend n bufptr
        (dataend - left) surface =
      some (bufptr', dataend - (left' : Nat), out) ∧
      bufptr ≤ bufptr' ∧ left' ≤ left ∧ out.length = surface.length := by
  induction n generalizing bufptr left surface with
  | zero => exact ⟨bufptr, left, surface, rfl, by simp⟩
  | succ n ih =>
    unfold copy
    split
    case isFalse => exact ⟨bufptr, left, surface, rfl, by simp⟩
    case isTrue hRoom =>
      rw [format_size] at hRoom ⊢
      have hUsed := used_bounds hd reads
      rcases (format_isSome hd reads alpha file bufptr).mpr (by omega) with ⟨v, hPixel⟩
      rcases put_of_mem surface v hLow (by omega) with ⟨surface', hPut, hLength⟩
      rcases @ih (bufptr + (plain hd).size) (left - 1) surface'
        (by omega) (by omega) with ⟨bufptr', left', out, hCopy, hLe, hLeft, hOut⟩
      refine ⟨bufptr', left', out, ?_, by omega, by omega, hOut.trans hLength⟩
      simp only [hPixel, hPut, bind_eq_bind, bind_some]
      rw [show dataend - (left : Int) + 1 = dataend - (left - 1 : Nat) by omega]
      exact hCopy

/-
  When the end of the bytes is far behind the file, all pixels
  are copied, or a read fails.
-/
theorem copy_beyond (reads : Bool) (alpha : Word → Word)
    {n bufptr left : Nat} {surface : List Word} (hStop : file.length + 8 ≤ stop)
    (hIn : bufptr ≤ file.length + 1) (hLow : 0 ≤ dataend - left)
    (hEnd : dataend ≤ surface.length) (hMin : min n left = 0 ∨
      bufptr + (plain hd).size * (min n left - 1) +
        used hd reads ≤ file.length) :
    ∃ out, copy file (format hd reads alpha) stop dataend n bufptr
        (dataend - left) surface =
      some (bufptr + (plain hd).size * min n left,
        dataend - (left - n : Nat), out) ∧
      out.length = surface.length := by
  induction n generalizing bufptr left surface with
  | zero =>
    rw [Nat.zero_min, Nat.mul_zero]
    exact ⟨surface, rfl, rfl⟩
  | succ n ih =>
    have hUsed := used_bounds hd reads
    unfold copy
    rw [format_size]
    cases left with
    | zero =>
      rw [if_neg (by omega), Nat.min_zero, Nat.mul_zero, Nat.zero_sub]
      exact ⟨surface, rfl, rfl⟩
    | succ left =>
      rw [Nat.add_min_add_right, Nat.add_sub_cancel] at hMin
      have hMin := hMin.resolve_left (Nat.succ_ne_zero _)
      rw [if_pos (by omega)]
      rcases (format_isSome hd reads alpha file bufptr).mpr (by omega) with ⟨v, hPixel⟩
      rcases put_of_mem surface v hLow (by omega) with ⟨surface', hPut, hLength⟩
      have hRest : min n left = 0 ∨ bufptr + (plain hd).size +
            (plain hd).size * (min n left - 1) + used hd reads ≤ file.length := by
        cases hCases : min n left with
        | zero => exact Or.inl rfl
        | succ m =>
          rw [hCases, Nat.mul_add_one] at hMin
          rw [Nat.add_sub_cancel]
          omega
      rcases @ih (bufptr + (plain hd).size) left surface'
        (by omega) (by omega) (by omega) hRest with ⟨out, hCopy, hOut⟩
      refine ⟨out, ?_, hOut.trans hLength⟩
      simp only [hPixel, hPut, bind_eq_bind, bind_some]
      rw [show dataend - ((left + 1 : Nat) : Int) + 1 =
          dataend - left by omega, hCopy, Nat.add_min_add_right,
          Nat.succ_sub_succ, Nat.mul_add_one, Nat.add_assoc bufptr, Nat.add_comm (plain hd).size]

theorem copy_eq_none (reads : Bool) (alpha : Word → Word)
    {n bufptr left : Nat} {surface : List Word}
    (hStop : file.length + 8 ≤ stop) (hIn : bufptr ≤ file.length + 1)
    (hLow : 0 ≤ dataend - left) (hEnd : dataend ≤ surface.length)
    (hPos : 0 < min n left) (hOut : file.length < bufptr +
    (plain hd).size * (min n left - 1) + used hd reads) :
    copy file (format hd reads alpha) stop dataend n bufptr (dataend - left) surface = none := by
  induction n generalizing bufptr left surface with
  | zero => exact absurd hPos (by omega)
  | succ n ih =>
    have hSize := size_bounds hd
    have hUsed := used_bounds hd reads
    unfold copy
    rw [format_size]
    cases left with
    | zero => exact absurd hPos (by omega)
    | succ left =>
      rw [Nat.add_min_add_right, Nat.add_sub_cancel] at hOut
      rw [if_pos (by omega)]
      by_cases hFits : bufptr + used hd reads ≤ file.length
      · rcases (format_isSome hd reads alpha file bufptr).mpr hFits with ⟨v, hPixel⟩
        rcases put_of_mem surface v hLow (by omega) with ⟨surface', hPut, hLength⟩
        cases hCases : min n left with
        | zero =>
          rw [hCases, Nat.mul_zero] at hOut
          exact absurd hFits (by omega)
        | succ m =>
          rw [hCases, Nat.mul_add_one] at hOut
          simp only [hPixel, hPut, bind_eq_bind, bind_some]
          rw [show dataend - ((left + 1 : Nat) : Int) + 1 =
            dataend - left by omega]
          refine @ih (bufptr + (plain hd).size) left surface'
            (by omega) (by omega) (by omega) (by omega) ?_
          rw [hCases, Nat.add_sub_cancel]
          omega
      · rw [format_eq_none hFits]
        rfl

theorem run_size (hd : Header) : (run hd).size = (plain hd).size :=
  format_size hd true (spread hd.abits)

theorem run_isSome (hd : Header) (file : List Byte) (p : Nat) :
    (∃ v, (run hd).pixel file p = some v) ↔ p + (plain hd).size ≤ file.length := by
  rw [← used_true]
  exact format_isSome hd true (spread hd.abits) file p

theorem packet_inside (val : Byte) {bufptr left : Nat}
    {surface : List Word} (hStop : stop ≤ file.length)
    (hLow : 0 ≤ dataend - left) (hEnd : dataend ≤ surface.length) :
    ∃ bufptr' left' out,
      packet file hd stop dataend val bufptr (dataend - left) surface =
        some (bufptr', dataend - (left' : Nat), out) ∧
      bufptr ≤ bufptr' ∧ left' ≤ left ∧ out.length = surface.length := by
  unfold packet
  split
  case isFalse => exact copy_inside _ _ hStop hLow hEnd
  case isTrue =>
    split
    case isFalse => exact ⟨bufptr, left, surface, rfl, by simp⟩
    case isTrue hRoom =>
      rw [run_size] at hRoom ⊢
      rcases (run_isSome hd file bufptr).mpr (by omega) with ⟨v, hPixel⟩
      rcases @fill_spec dataend v (count val) left surface hLow hEnd with ⟨out, hFill, hOut⟩
      refine ⟨bufptr + (plain hd).size, left - count val, out, ?_,
        Nat.le_add_right _ _, Nat.sub_le _ _, hOut⟩
      simp only [hPixel, hFill, bind_eq_bind, bind_some]

/- Before the end of the bytes, every packet is decoded. -/
theorem packets_inside {fuel bufptr left : Nat} {surface : List Word}
    (hStop : stop ≤ file.length) (hFuel : stop + 1 ≤ fuel + bufptr)
    (hLow : 0 ≤ dataend - left) (hEnd : dataend ≤ surface.length)
    (hPos : 0 < fuel) :
    ∃ out, packets file hd stop dataend fuel bufptr (dataend - left)
      surface = some out ∧ out.length = surface.length := by
  induction fuel generalizing bufptr left surface with
  | zero => exact absurd hPos (Nat.lt_irrefl 0)
  | succ fuel ih =>
    unfold packets
    split
    case isFalse => exact ⟨surface, rfl, rfl⟩
    case isTrue hMore =>
      rw [getElem?_eq_getElem (show bufptr < file.length by omega)]
      rcases @packet_inside file hd stop dataend file[bufptr]
        (bufptr + 1) left surface hStop hLow hEnd with
        ⟨bufptr', left', surface', hPacket, hLe, hLeft, hLength⟩
      rcases @ih bufptr' left' surface' (by omega) (by omega)
        (by omega) (by omega) with ⟨out, hPackets, hOut⟩
      refine ⟨out, ?_, hOut.trans hLength⟩
      simp only [hPacket, hPackets, bind_eq_bind, bind_some]

theorem count_pos (val : Byte) : 0 < count val := Nat.succ_pos _

/- A packet ends with the bytes of it that are read. -/
theorem packetSize_le {val : Byte} {bufptr left : Nat}
    (hIn : bufptr + 1 + packetUsed hd val left ≤ file.length) :
    bufptr + 1 + packetSize hd val left ≤ file.length + 1 := by
  have hUsed := used_bounds hd (hd.hasa || repeats val)
  unfold packetUsed at hIn
  unfold packetSize
  cases hTaken : taken val left with
  | zero => omega
  | succ n =>
    rw [hTaken, Nat.add_sub_cancel] at hIn
    rw [Nat.mul_add_one]
    omega

section

variable (hStop : file.length + 8 ≤ stop)

include hStop

/- A packet whose bytes are in the file -/
theorem packet_beyond {val : Byte} {bufptr left : Nat} {surface : List Word}
    (hIn : bufptr + packetUsed hd val left ≤ file.length)
    (hLow : 0 ≤ dataend - left) (hEnd : dataend ≤ surface.length) :
    ∃ out,
      packet file hd stop dataend val bufptr (dataend - left) surface =
        some (bufptr + packetSize hd val left,
          dataend - (left - count val : Nat), out) ∧
      out.length = surface.length := by
  unfold packetUsed taken at hIn
  unfold packet packetSize taken
  cases hRun : repeats val with
  | true =>
    simp only [hRun, if_true, Bool.or_true, used_true,
      Nat.sub_self, Nat.mul_zero, Nat.zero_add] at hIn
    rw [if_pos rfl, if_pos rfl, Nat.mul_one, run_size, if_pos (by omega)]
    rcases (run_isSome hd file bufptr).mpr hIn with ⟨v, hPixel⟩
    rcases @fill_spec dataend v (count val) left surface hLow hEnd with ⟨out, hFill, hOut⟩
    refine ⟨out, ?_, hOut⟩
    simp only [hPixel, hFill, bind_eq_bind, bind_some]
  | false =>
    simp only [hRun, Bool.false_eq_true, if_false, Bool.or_false] at hIn
    rw [if_neg Bool.false_ne_true, if_neg Bool.false_ne_true]
    exact copy_beyond hd.hasa id hStop (by omega) hLow hEnd (Or.inr (by omega))

/- A packet with bytes behind the file -/
theorem packet_eq_none {val : Byte} {bufptr left : Nat} {surface : List Word}
    (hBuf : bufptr ≤ file.length) (hOut : file.length < bufptr + packetUsed hd val left)
    (hPos : 0 < left) (hLow : 0 ≤ dataend - left)
    (hEnd : dataend ≤ surface.length) :
    packet file hd stop dataend val bufptr (dataend - left) surface = none := by
  have hSize := size_bounds hd
  unfold packetUsed taken at hOut
  unfold packet
  cases hRun : repeats val with
  | true =>
    simp only [hRun, if_true, Bool.or_true, used_true,
      Nat.sub_self, Nat.mul_zero, Nat.zero_add] at hOut
    rw [if_pos rfl, run_size, if_pos (by omega)]
    have hNone : (run hd).pixel file bufptr = none := format_eq_none (by rw [used_true]; omega)
    rw [hNone]
    rfl
  | false =>
    simp only [hRun, Bool.false_eq_true, if_false, Bool.or_false] at hOut
    have hCount := count_pos val
    rw [if_neg Bool.false_ne_true]
    exact copy_eq_none hd.hasa id hStop (by omega) hLow hEnd (by omega) (by omega)

/- Packets that are in the file are decoded. -/
theorem packets_beyond {fuel bufptr left : Nat} {surface : List Word}
    (hFit : PacketsFit file hd bufptr left)
    (hFuel : file.length + 1 ≤ fuel + bufptr) (hPos : 0 < fuel)
    (hLow : 0 ≤ dataend - left) (hEnd : dataend ≤ surface.length) :
    ∃ out, packets file hd stop dataend fuel bufptr (dataend - left)
      surface = some out ∧ out.length = surface.length := by
  induction hFit generalizing fuel surface with
  | filled pos =>
    obtain ⟨fuel, rfl⟩ := Nat.exists_eq_succ_of_ne_zero (Nat.pos_iff_ne_zero.mp hPos)
    unfold packets
    rw [if_neg (by omega)]
    exact ⟨surface, rfl, rfl⟩
  | @packet pos left val hVal hIn _ ih =>
    obtain ⟨fuel, rfl⟩ := Nat.exists_eq_succ_of_ne_zero (Nat.pos_iff_ne_zero.mp hPos)
    unfold packets
    split
    case isFalse => exact ⟨surface, rfl, rfl⟩
    case isTrue =>
      rcases packet_beyond hStop hIn hLow hEnd with ⟨surface', hPacket, hLength⟩
      rcases @ih fuel surface' (by omega) (by omega) (by omega)
        (by omega) with ⟨out, hPackets, hOut⟩
      refine ⟨out, ?_, hOut.trans hLength⟩
      simp only [hVal, hPacket, hPackets, bind_eq_bind, bind_some]

/- What is decoded are packets that are in the file. -/
theorem packetsFit_of_packets {fuel bufptr left : Nat} {surface out : List Word}
    (hBuf : bufptr < stop) (hLow : 0 ≤ dataend - left) (hEnd : dataend ≤ surface.length)
    (hPackets : packets file hd stop dataend fuel bufptr
      (dataend - left) surface = some out) : PacketsFit file hd bufptr left := by
  induction fuel generalizing bufptr left surface with
  | zero => exact nomatch hPackets
  | succ fuel ih =>
    cases hLeft : left with
    | zero => exact .filled bufptr
    | succ rest =>
      unfold packets at hPackets
      rw [if_pos (by omega), bind_eq_bind, bind_eq_some_iff] at hPackets
      rcases hPackets with ⟨val, hVal, hPackets⟩
      have hLt := (List.getElem?_eq_some_iff.mp hVal).1
      by_cases hIn : bufptr + 1 + packetUsed hd val left ≤ file.length
      · rcases packet_beyond hStop hIn hLow hEnd with ⟨surface', hPacket, hLength⟩
        rw [hPacket, bind_eq_bind, bind_some] at hPackets
        rw [← hLeft]
        refine .packet hVal hIn ?_
        have hSize := packetSize_le hIn
        exact ih (by omega) (by omega) (by omega) hPackets
      · rw [packet_eq_none hStop hLt (by omega) (by omega) hLow hEnd] at hPackets
        exact nomatch hPackets

end

end

---
-- Turned Pictures
---

theorem get_of_mem {i : Int} (surface : List Word)
    (hLow : 0 ≤ i) (hHigh : i < surface.length) : ∃ v, get surface i = some v := by
  unfold get
  rw [if_pos hLow, List.getElem?_eq_getElem (show i.toNat < surface.length by omega)]
  exact ⟨_, rfl⟩

theorem swapRows_inside {n : Nat} {adv adv2 : Int} {surface : List Word}
    (hLow : 0 ≤ adv) (hHigh : adv + n ≤ surface.length)
    (hLow2 : 0 ≤ adv2) (hHigh2 : adv2 + n ≤ surface.length) :
    ∃ out, swapRows adv adv2 n surface = some out ∧ out.length = surface.length := by
  induction n generalizing adv adv2 surface with
  | zero => exact ⟨surface, rfl, rfl⟩
  | succ n ih =>
    rcases get_of_mem surface hLow (by omega) with ⟨tmp, hTmp⟩
    rcases get_of_mem surface hLow2 (by omega) with ⟨v, hGet⟩
    rcases put_of_mem surface v hLow (by omega) with ⟨surface₁, hPut₁, hLength₁⟩
    rcases put_of_mem surface₁ tmp hLow2 (by omega) with ⟨surface₂, hPut₂, hLength₂⟩
    rcases @ih (adv + 1) (adv2 + 1) surface₂ (by omega)
      (by omega) (by omega) (by omega) with ⟨out, hSwap, hOut⟩
    refine ⟨out, ?_, by omega⟩
    unfold swapRows
    simp only [hTmp, hGet, hPut₁, hPut₂, hSwap, bind_eq_bind, bind_some]

/- Rows from both ends, that have not met yet -/
theorem flip_inside {w n : Nat} {adv adv2 : Int} {surface : List Word}
    (hLow : 0 ≤ adv) (hHigh : adv + w * n ≤ surface.length) (hLow2 : (w : Int) * n ≤ adv2 + w)
    (hHigh2 : adv2 + w ≤ surface.length) : ∃ out, flip w n adv adv2 surface = some out := by
  induction n generalizing adv adv2 surface with
  | zero => exact ⟨surface, rfl⟩
  | succ n ih =>
    have hProd : 0 ≤ (w : Int) * n := Int.mul_nonneg (Int.natCast_nonneg w) (Int.natCast_nonneg n)
    push_cast [Int.mul_add, Int.mul_one] at hHigh hLow2
    rcases @swapRows_inside w adv adv2 surface hLow (by omega)
      (by omega) hHigh2 with ⟨surface', hSwap, hLength⟩
    rcases @ih (adv + w) (adv2 - w) surface' (by omega)
      (by omega) (by omega) (by omega) with ⟨out, hFlip⟩
    refine ⟨out, ?_⟩
    unfold flip
    rw [hSwap, bind_eq_bind, bind_some]
    exact hFlip

/- A picture is turned if the last row starts in an `int`. -/
theorem flip_iff {w h : Nat} (hW : 1 ≤ w) (hH : 1 ≤ h)
    (hMax : w ≤ 65000 ∧ h ≤ 65000) (hLength : surface.length = w * h) :
    (∃ out, flip w (h / 2) 0 (wrap (w * (h - 1 : Nat)))
      surface = some out) ↔ ((w * (h - 1) : Nat) : Int) ≤ intMax := by
  have hProd : w * (h - 1) + w = w * h := by
    rw [← Nat.mul_add_one, Nat.sub_add_cancel hH]
  have hBound : w * h ≤ 65000 * 65000 := Nat.mul_le_mul hMax.1 hMax.2
  rw [← Nat.cast_mul]
  constructor
  · rintro ⟨out, hFlip⟩
    by_contra hGt
    have hWrap := wrap_of_gt (x := (w * (h - 1) : Nat)) (by omega) (by unfold intMax at *; omega)
    have hTwo : h ≠ 1 := by
      rintro rfl
      rw [Nat.sub_self, Nat.mul_zero] at hGt
      exact hGt (by decide)
    obtain ⟨n, hHalf⟩ := Nat.exists_eq_succ_of_ne_zero (show h / 2 ≠ 0 by omega)
    obtain ⟨m, rfl⟩ := Nat.exists_eq_succ_of_ne_zero (Nat.pos_iff_ne_zero.mp hW)
    have hNone : get surface (wrap ((m.succ * (h - 1) : Nat) : Int)) = none := by
      unfold get
      rw [if_neg (by omega)]
    rw [hHalf] at hFlip
    unfold flip swapRows at hFlip
    rw [hNone] at hFlip
    cases hGet : get surface 0 with
    | none => simp [hGet] at hFlip
    | some tmp => simp [hGet] at hFlip
  · intro hLe
    have hRange : CInt.InRange ((w * (h - 1) : Nat) : Int) := by
      unfold intMax at hLe
      unfold CInt.InRange
      omega
    rw [wrap_of_inRange hRange]
    have hHalf : w * (h / 2) ≤ w * h := Nat.mul_le_mul_left w (Nat.div_le_self h 2)
    have hCast : (w : Int) * ((h / 2 : Nat) : Int) = ((w * (h / 2) : Nat) : Int) := by
      rw [Nat.cast_mul]
    apply flip_inside (le_refl 0)
    · rw [hCast]
      omega
    · rw [hCast]
      omega
    · omega

end Efl.Evas.Tga
