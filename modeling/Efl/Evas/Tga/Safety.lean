import Efl.Evas.Tga.Decode

/-
  What the TGA loader reads and writes.

  The end of the pixels is a difference of unsigned numbers.
  When it does not wrap, no read is outside of the file.

  Main declarations:
    * `Tga.Fits`, `Tga.Safe`
    * `Tga.decode_iff`
    * `Tga.load_correct`
-/

---
-- The Loader
---

namespace Efl.Evas.Tga

open Bytes CInt Option

/- What is in the file but the pixels. -/
def slack (hd : Header) (present : Bool) : Nat :=
  start hd + if present then footerSize else 0

/-
  The header, the identifier and the footer leave room in the
  file, or the pixels are there all the same; and no row that
  is decoded starts beyond the range of an `int`.
-/
def Fits (file : List Byte) (hd : Header) (present : Bool) : Prop :=
  if hd.rle then
    (slack hd present ≤ file.length ∨
      PacketsFit file hd (start hd)
        (wrap (hd.w * hd.h)).toNat) ∧
    (hd.vinverted →
      ((hd.w * (hd.h - 1) : Nat) : Int) ≤ intMax)
  else
    (slack hd present ≤ file.length ∨
      start hd + (plain hd).size * (hd.w * hd.h - 1) +
        used hd hd.hasa ≤ file.length) ∧
    ∀ y < hd.h,
      start hd + (plain hd).size * (hd.w * y) + need hd ≤
        bufend file hd present →
      ((line hd y * hd.w : Nat) : Int) ≤ intMax

/- The same, for what the header and the footer say. -/
def Safe (file : List Byte) : Prop :=
  ∀ hd present,
    headerSize + footerSize ≤ file.length →
    header file = some hd →
    footerPresent file = some present →
    hd.Accepted →
    Fits file hd present

section

variable {file : List Byte} {hd : Header} {present : Bool}

theorem bufend_le (hSlack : slack hd present ≤ file.length) :
    bufend file hd present ≤ file.length := by
  unfold slack start at hSlack
  unfold bufend datasize
  cases present with
  | false =>
    simp only [Bool.false_eq_true, if_false] at hSlack ⊢
    omega
  | true =>
    simp only [if_true] at hSlack ⊢
    omega

section

variable (hSize : headerSize + footerSize ≤ file.length)

include hSize

/- The difference wraps. -/
theorem bufend_ge
    (hSlack : file.length < slack hd present) : 4294967000 ≤ bufend file hd present := by
  unfold headerSize footerSize at hSize
  unfold slack start headerSize footerSize at hSlack
  unfold bufend datasize headerSize footerSize
  cases present with
  | false =>
    simp only [Bool.false_eq_true, if_false] at hSlack ⊢
    omega
  | true =>
    simp only [if_true] at hSlack ⊢
    omega

omit hSize in
theorem slack_le (hd : Header) (present : Bool) :
    start hd ≤ slack hd present ∧ slack hd present ≤ start hd + 26 ∧ slack hd present ≤ 299 := by
  unfold slack start headerSize footerSize
  split <;> omega

theorem packets_start {surface : List Word} (hEnd : wrap (hd.w * hd.h) ≤
    surface.length) (hFits : slack hd present ≤ file.length ∨
    PacketsFit file hd (start hd) (wrap (hd.w * hd.h)).toNat) :
    ∃ out, packets file hd (bufend file hd present) (wrap (hd.w * hd.h))
      (bufend file hd present + 1) (start hd) 0 surface = some out ∧
      out.length = surface.length := by
  have hSlack := slack_le hd present
  rcases lt_or_ge (wrap (hd.w * hd.h)) 0 with hNeg | hNonneg
  · unfold packets
    rw [if_neg (by omega)]
    exact ⟨surface, rfl, rfl⟩
  · have hZero : wrap (hd.w * hd.h) - ((wrap (hd.w * hd.h)).toNat : Int) = 0 := by
      omega
    by_cases hRoom : slack hd present ≤ file.length
    · have hStop := bufend_le hRoom
      have hAll := @packets_inside file hd _ (wrap (hd.w * hd.h))
        (bufend file hd present + 1) (start hd) _ surface hStop
        (by omega) (le_of_eq hZero.symm) hEnd (Nat.succ_pos _)
      rwa [hZero] at hAll
    · have hStop := bufend_ge hSize (Nat.lt_of_not_le hRoom)
      have hAll := @packets_beyond file hd (bufend file hd present)
        (wrap (hd.w * hd.h)) (by omega) (bufend file hd present + 1)
        (start hd) _ surface (hFits.resolve_left hRoom)
        (by omega) (Nat.succ_pos _) (le_of_eq hZero.symm) hEnd
      rwa [hZero] at hAll

theorem fits_of_packets {surface out : List Word}
    (hEnd : wrap (hd.w * hd.h) ≤ surface.length) (hPackets :
    packets file hd (bufend file hd present) (wrap (hd.w * hd.h))
    (bufend file hd present + 1) (start hd) 0 surface = some out) :
    slack hd present ≤ file.length ∨ PacketsFit file hd (start hd) (wrap (hd.w * hd.h)).toNat := by
  have hSlack := slack_le hd present
  by_cases hRoom : slack hd present ≤ file.length
  · exact Or.inl hRoom
  · right
    have hStop := bufend_ge hSize (Nat.lt_of_not_le hRoom)
    rcases lt_or_ge (wrap (hd.w * hd.h)) 0 with hNeg | hNonneg
    · rw [Int.toNat_of_nonpos (le_of_lt hNeg)]
      exact .filled _
    · have hZero : (0 : Int) = wrap (hd.w * hd.h) - ((wrap (hd.w * hd.h)).toNat : Int) := by
        omega
      rw [hZero] at hPackets
      exact packetsFit_of_packets (by omega) (by omega) (le_of_eq hZero) hEnd hPackets

end

/- The lines of a picture are as many as its rows. -/
theorem line_lt {y : Nat} (hY : y < hd.h) : line hd y < hd.h := by
  unfold line
  split <;> omega

/- A line that starts in the range of an `int` is in the surface. -/
theorem line_inside {y i : Nat} (hMax : hd.w ≤ 65000 ∧ hd.h ≤ 65000)
    (hY : y < hd.h) (hI : i < hd.w) :
    (0 ≤ wrap (line hd y * hd.w) + i ∧
      wrap (line hd y * hd.w) + i < (hd.w * hd.h : Nat)) ↔
      ((line hd y * hd.w : Nat) : Int) ≤ intMax := by
  have hLine := line_lt hY
  have hEnd : line hd y * hd.w + hd.w ≤ hd.w * hd.h := by
    rw [← Nat.succ_mul, Nat.mul_comm hd.w]
    exact Nat.mul_le_mul_right hd.w hLine
  have hBound : hd.w * hd.h ≤ 65000 * 65000 := Nat.mul_le_mul hMax.1 hMax.2
  rw [← Nat.cast_mul]
  constructor
  · rintro ⟨hLow, -⟩
    by_contra hGt
    rw [wrap_of_gt (by omega) (by unfold intMax at *; omega)] at hLow
    omega
  · intro hLe
    have hRange : CInt.InRange ((line hd y * hd.w : Nat) : Int) := by
      unfold intMax at hLe
      unfold CInt.InRange
      omega
    rw [wrap_of_inRange hRange]
    omega

section

variable (hSize : headerSize + footerSize ≤ file.length)

include hSize

/- The bytes of the pixels with room are in the file. -/
theorem pixels_inside (hPos : 0 < hd.w * hd.h) :
    (∀ k < hd.w * hd.h, start hd +
      (plain hd).size * k + need hd ≤ bufend file hd present →
      start hd + (plain hd).size * k + used hd hd.hasa ≤ file.length) ↔
      slack hd present ≤ file.length ∨ start hd + (plain hd).size *
      (hd.w * hd.h - 1) + used hd hd.hasa ≤ file.length := by
  have hSlack := slack_le hd present
  have hUsed := used_bounds hd hd.hasa
  have hNeed := need_bounds hd
  constructor
  · intro hAll
    by_contra hNot
    rw [not_or] at hNot
    have hStop := bufend_ge hSize (Nat.lt_of_not_le hNot.1)
    -- The 27th pixel is behind the file, whatever the file is.
    by_cases hMany : hd.w * hd.h - 1 ≤ 26
    · have hStep : (plain hd).size * (hd.w * hd.h - 1) ≤ 4 * 26 :=
        Nat.mul_le_mul (size_bounds hd).2 hMany
      have hLast := hAll (hd.w * hd.h - 1) (by omega) (by omega)
      exact hNot.2 hLast
    · have hSize26 := size_bounds hd
      have hLast := hAll 26 (by omega) (by omega)
      omega
  · rintro (hRoom | hLast) k hK hIn
    · have hStop := bufend_le hRoom
      omega
    · have hStep : (plain hd).size * k ≤ (plain hd).size * (hd.w * hd.h - 1) :=
        Nat.mul_le_mul_left _ (by omega)
      omega

theorem rows_start {surface : List Word}
    (hAccepted : hd.Accepted) (hLength : surface.length = hd.w * hd.h) :
    (∃ out, rows file hd (bufend file hd present) hd.h (start hd)
      surface = some out) ↔
      (slack hd present ≤ file.length ∨ start hd + (plain hd).size *
        (hd.w * hd.h - 1) + used hd hd.hasa ≤ file.length) ∧
      ∀ y < hd.h, start hd + (plain hd).size *
        (hd.w * y) + need hd ≤ bufend file hd present →
        ((line hd y * hd.w : Nat) : Int) ≤ intMax := by
  rcases hAccepted with ⟨-, -, -, -, -, -, hW, hH, hMaxW, hMaxH, -⟩
  have hPos : 0 < hd.w * hd.h := Nat.mul_pos hW hH
  rw [rows_iff _ _ (le_refl hd.h), ← pixels_inside hSize hPos, Nat.sub_self, hLength]
  simp only [Nat.zero_add]
  constructor
  · intro hAll
    constructor
    · intro k hK hIn
      have hDiv : hd.w * (k / hd.w) + k % hd.w = k := Nat.div_add_mod k hd.w
      have hRow := hAll (k / hd.w) (Nat.div_lt_of_lt_mul hK) (k % hd.w) (Nat.mod_lt k hW)
      rw [hDiv] at hRow
      exact (hRow hIn).1
    · intro y hY hIn
      exact (line_inside ⟨hMaxW, hMaxH⟩ hY hW).mp (hAll y hY 0 hW hIn).2
  · rintro ⟨hPixels, hLines⟩ j hJ i hI hIn
    have hIndex : hd.w * j + i < hd.w * hd.h := by
      calc hd.w * j + i < hd.w * j + hd.w := Nat.add_lt_add_left hI _
        _ = hd.w * (j + 1) := (Nat.mul_succ hd.w j).symm
        _ ≤ hd.w * hd.h := Nat.mul_le_mul_left hd.w hJ
    have hFirst : start hd + (plain hd).size * (hd.w * j) + need hd ≤ bufend file hd present := by
      rw [Nat.mul_add] at hIn
      omega
    exact ⟨hPixels _ hIndex hIn, (line_inside ⟨hMaxW, hMaxH⟩ hJ hI).mpr (hLines j hJ hFirst)⟩

theorem decode_iff {surface : List Word}
    (hAccepted : hd.Accepted) (hLength : surface.length = hd.w * hd.h) :
    (∃ out, decode file hd present surface = some out) ↔ Fits file hd present := by
  unfold decode Fits
  dsimp only
  cases hRle : hd.rle with
  | false =>
    rw [if_neg Bool.false_ne_true, if_neg Bool.false_ne_true]
    exact rows_start hSize hAccepted hLength
  | true =>
    rw [if_pos rfl, if_pos rfl]
    rcases hAccepted with ⟨-, -, -, -, -, -, hW, hH, hMaxW, hMaxH, -⟩
    have hEnd : wrap (hd.w * hd.h) ≤ surface.length := by
      rw [hLength, ← Nat.cast_mul]
      unfold wrap
      omega
    constructor
    · rintro ⟨out, hDecode⟩
      rw [bind_eq_bind, bind_eq_some_iff] at hDecode
      rcases hDecode with ⟨surface', hPackets, hFlip⟩
      have hFits := fits_of_packets hSize hEnd hPackets
      refine ⟨hFits, fun hVert => ?_⟩
      rcases packets_start hSize hEnd hFits with ⟨same, hSame, hKeeps⟩
      obtain rfl := some.inj (hPackets.symm.trans hSame)
      rw [if_pos hVert] at hFlip
      exact (flip_iff hW hH ⟨hMaxW, hMaxH⟩ (hKeeps.trans hLength)).mp ⟨out, hFlip⟩
    · rintro ⟨hFits, hTurn⟩
      rcases packets_start hSize hEnd hFits with ⟨surface', hPackets, hKeeps⟩
      rw [hPackets, bind_eq_bind, bind_some]
      split
      case isFalse => exact ⟨surface', rfl⟩
      case isTrue hVert =>
        exact (flip_iff hW hH ⟨hMaxW, hMaxH⟩ (hKeeps.trans hLength)).mpr (hTurn hVert)

/- The header is read from files that are large enough. -/
theorem header_isSome : ∃ hd, header file = some hd := by
  unfold headerSize footerSize at hSize
  have hByte : ∀ k < 44, ∃ b, file[k]? = some b := fun k hLt =>
    ⟨_, List.getElem?_eq_getElem (by omega)⟩
  rcases hByte 0 (by decide) with ⟨b0, h0⟩
  rcases hByte 1 (by decide) with ⟨b1, h1⟩
  rcases hByte 2 (by decide) with ⟨b2, h2⟩
  rcases hByte 7 (by decide) with ⟨b7, h7⟩
  rcases hByte 8 (by decide) with ⟨b8, h8⟩
  rcases hByte 9 (by decide) with ⟨b9, h9⟩
  rcases hByte 10 (by decide) with ⟨b10, h10⟩
  rcases hByte 11 (by decide) with ⟨b11, h11⟩
  rcases hByte 12 (by decide) with ⟨b12, h12⟩
  rcases hByte 13 (by decide) with ⟨b13, h13⟩
  rcases hByte 14 (by decide) with ⟨b14, h14⟩
  rcases hByte 15 (by decide) with ⟨b15, h15⟩
  rcases hByte 16 (by decide) with ⟨b16, h16⟩
  rcases hByte 17 (by decide) with ⟨b17, h17⟩
  unfold header
  simp only [h0, h1, h2, h7, h8, h9, h10, h11, h12, h13, h14,
    h15, h16, h17, bind_eq_bind, bind_some]
  exact ⟨_, rfl⟩

theorem footerPresent_isSome : ∃ present, footerPresent file = some present := by
  unfold footerPresent Block.read
  rw [if_pos (by omega)]
  exact ⟨_, rfl⟩

end

end

/-
  The head is read safely from every file; the data are if and
  only if they fit.
-/
theorem load_correct (file : List Byte) (prop : Property) :
    ∃ prop' error,
      head file prop = some (prop', error) ∧
      ∀ surface : List Word,
        surface.length = prop'.w * prop'.h →
        ((∃ out, data file prop' surface = some out) ↔ Safe file) := by
  unfold head data
  by_cases hSmall : file.length < headerSize + footerSize
  · refine ⟨prop, .unknownFormat, if_pos hSmall, ?_⟩
    intro surface _
    rw [if_pos hSmall]
    refine ⟨fun _ hd present hSize => ?_, fun _ => ⟨_, rfl⟩⟩
    exact absurd hSize (Nat.not_le_of_lt hSmall)
  · have hSize := Nat.le_of_not_lt hSmall
    rcases header_isSome hSize with ⟨hd, hHeader⟩
    rcases footerPresent_isSome hSize with ⟨present, hFooter⟩
    rw [if_neg hSmall]
    simp only [hHeader, hFooter, bind_eq_bind, bind_some, if_neg hSmall]
    have hSafe : Safe file ↔
        (hd.Accepted → Fits file hd present) := by
      constructor
      · intro hAll
        exact hAll hd present hSize hHeader hFooter
      · intro hOne hd' present' _ hHeader' hFooter'
        obtain rfl := some.inj (hHeader.symm.trans hHeader')
        obtain rfl := some.inj (hFooter.symm.trans hFooter')
        exact hOne
    by_cases hAccepted : hd.Accepted
    · refine ⟨_, _, if_pos hAccepted, ?_⟩
      intro surface hLength
      rw [if_pos hAccepted, if_pos ⟨rfl, rfl⟩, hSafe,
        ← decode_iff hSize hAccepted hLength]
      constructor
      · rintro ⟨out, hData⟩ _
        rw [bind_eq_some_iff] at hData
        rcases hData with ⟨surface', hDecode, -⟩
        exact ⟨surface', hDecode⟩
      · intro hDecode
        rcases hDecode hAccepted with ⟨surface', hDecode⟩
        rw [hDecode]
        exact ⟨_, rfl⟩
    · refine ⟨_, _, if_neg hAccepted, ?_⟩
      intro surface _
      rw [if_neg hAccepted, hSafe]
      exact ⟨fun _ hAbsurd => absurd hAbsurd hAccepted,
        fun _ => ⟨_, rfl⟩⟩

/- A gray picture of one pixel, with an identifier that long -/
def onePixel (idLength : Byte) : List Byte :=
  [idLength, 0, 3, 0, 0, 0, 0, 0, 0, 0, 0, 0, 1, 0, 1, 0, 8,
    0x20] ++ List.replicate 26 0

theorem load_correct_sample :
    ∃ out, data (onePixel 0) ⟨1, 1, false, false⟩ [0] =
      some out := by
  rcases load_correct (onePixel 0) ⟨0, 0, false, false⟩ with
    ⟨prop, error, hHead, hData⟩
  obtain ⟨rfl, rfl⟩ : prop = ⟨1, 1, false, false⟩ ∧
      error = .none := by
    rw [show head (onePixel 0) ⟨0, 0, false, false⟩ =
      some (⟨1, 1, false, false⟩, .none) by decide] at hHead
    cases hHead
    exact ⟨rfl, rfl⟩
  refine (hData [0] rfl).mpr ?_
  intro hd present _ hHeader hFooter _
  obtain rfl := some.inj hHeader
  refine ⟨Or.inl ?_, ?_⟩
  · cases present with
    | false => decide
    | true => exact nomatch hFooter
  · intro y hY _
    obtain rfl : y = 0 := Nat.lt_one_iff.mp hY
    decide

/- An identifier that is longer than the file -/
theorem identifier_is_trusted :
    head (onePixel 255) ⟨0, 0, false, false⟩ =
      some (⟨1, 1, false, false⟩, .none) ∧
    data (onePixel 255) ⟨1, 1, false, false⟩ [0] = none :=
  ⟨by decide, by decide⟩

end Efl.Evas.Tga
