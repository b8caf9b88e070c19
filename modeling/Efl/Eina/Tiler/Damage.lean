import Efl.Eina.Tiler.Cover

/-
  The pixels that a tiler shows.

  With rounding, the splitter works on cells of two by two
  pixels: additions are rounded up to cells and deletions
  down.

  Main declarations:
    * `Tiler.Shows`
    * `Tiler.AxisFits`
    * `Tiler.splitterRectAdd_spec`
    * `Tiler.splitterRectDel_spec`
-/

---
-- Cells and Pixels
---

namespace Efl.Eina.Tiler

open CInt

/- The cell of a pixel. -/
def cellOf (rounding : Bool) (p : Pixel) : Pixel :=
  if rounding then (p.1 / 2, p.2 / 2) else p

/- The splitter covers the cell of the pixel. -/
def Shows (t : Tiler) (p : Pixel) : Prop :=
  Covered t.rects (cellOf t.rounding p)

/- Rounded up to whole tiles. -/
def roundUp (tile m : Int) : Int :=
  tile * ((m + tile - 1) / tile)

/-
  The number of columns (or rows) of cells that rectangles
  can reach in an area of `n` pixels.
-/
def axisCells (rounding strict : Bool) (n tile : Int) : Int :=
  let m := if rounding then n / 2 + 1 else n
  if strict then roundUp tile m else m

/- No coordinate of such a cell leaves the `int` range. -/
def AxisFits (rounding strict : Bool) (n tile : Int) : Prop :=
  (rounding = true → n + 2 ≤ intMax ∧
    2 * axisCells rounding strict n tile ≤ intMax) ∧
  (strict = true →
    axisCells rounding strict n tile + tile ≤ intMax)

instance (rounding strict : Bool) (n tile : Int) : Decidable (AxisFits rounding strict n tile) :=
  inferInstanceAs (Decidable (_ ∧ _))

/- The number of columns of cells. -/
def cols (t : Tiler) : Int :=
  axisCells t.rounding t.strict t.area.w t.tileW

/- The number of rows of cells. -/
def rows (t : Tiler) : Int :=
  axisCells t.rounding t.strict t.area.h t.tileH

/- The area and the tiles are small enough for `int`s. -/
def Fits (t : Tiler) : Prop :=
  AxisFits t.rounding t.strict t.area.w t.tileW ∧
    AxisFits t.rounding t.strict t.area.h t.tileH

instance (t : Tiler) : Decidable t.Fits :=
  inferInstanceAs (Decidable (_ ∧ _))

/-
  A tiler whose rectangles lie where its area and its
  rounding allow.
-/
structure Sound (t : Tiler) : Prop where
  area : t.area.IsArea
  tileW_pos : 0 < t.tileW
  tileH_pos : 0 < t.tileH
  fits : t.Fits
  inBox : AllInBox t.cols t.rows t.rects

variable {tile m : Int}

theorem le_roundUp (hTile : 0 < tile) : m ≤ roundUp tile m := by
  have hDiv := Int.emod_add_mul_ediv (m + tile - 1) tile
  have hMod := Int.emod_lt_of_pos (m + tile - 1) hTile
  unfold roundUp
  omega

variable {n : Int}

theorem axisCells_spec {rounding strict : Bool} (hTile : 0 < tile) (hPos : 0 < n) (hLe : n ≤ intMax)
    (hFits : AxisFits rounding strict n tile) :
    (if rounding then n / 2 + 1 else n) ≤
        axisCells rounding strict n tile ∧
      axisCells rounding strict n tile ≤ intMax := by
  rcases hFits with ⟨hRounding, hStrict⟩
  have hUp : (if rounding then n / 2 + 1 else n) ≤ axisCells rounding strict n tile := by
    unfold axisCells
    dsimp only
    generalize (if rounding then n / 2 + 1 else n) = m
    split
    · exact le_roundUp hTile
    · exact Int.le_refl m
  refine ⟨hUp, ?_⟩
  cases strict with
  | true =>
    have h := hStrict rfl
    omega
  | false =>
    cases rounding with
    | true =>
      have h := (hRounding rfl).2
      simp only [if_true] at hUp
      omega
    | false => simpa [axisCells] using hLe

section

variable {t : Tiler} (hSound : t.Sound)

include hSound

theorem Sound.cols_spec :
    (if t.rounding then t.area.w / 2 + 1 else t.area.w) ≤ t.cols ∧
        t.cols ≤ intMax :=
  axisCells_spec hSound.tileW_pos hSound.area.w_pos hSound.area.w_le hSound.fits.1

theorem Sound.rows_spec :
    (if t.rounding then t.area.h / 2 + 1 else t.area.h) ≤ t.rows ∧
        t.rows ≤ intMax :=
  axisCells_spec hSound.tileH_pos hSound.area.h_pos hSound.area.h_le hSound.fits.2

end

/-
  A rectangle in the area, or one without width or height at
  its border.
-/
structure Placed (t : Tiler) (r : Rectangle) : Prop where
  x_nonneg : 0 ≤ r.x
  y_nonneg : 0 ≤ r.y
  w_nonneg : 0 ≤ r.w
  h_nonneg : 0 ≤ r.h
  right_le : r.x + r.w ≤ t.area.w
  bottom_le : r.y + r.h ≤ t.area.h

---
-- Additions
---

open Option

theorem wrap_of_le {x : Int} (hMax : n ≤ intMax) (hLow : -2 ≤ x) (hHigh : x ≤ n) : wrap x = x := by
  unfold intMax at hMax
  apply wrap_of_inRange
  unfold CInt.InRange
  omega

variable {t : Tiler} {r : Rectangle}

/- The cells of an added rectangle. -/
theorem roundAdd_spec (hSound : t.Sound) (hPlaced : t.Placed r) :
    InBox t.cols t.rows (rectInit (roundAdd t.rounding r).x (roundAdd t.rounding r).y
      (roundAdd t.rounding r).w (roundAdd t.rounding r).h) ∧ ∀ p : Pixel,
        r.x ≤ p.1 → p.1 < r.x + r.w ∨
          (t.rounding = true ∧ r.x % 2 = 0 ∧ p.1 < r.x + r.w + 1) →
        r.y ≤ p.2 → p.2 < r.y + r.h ∨
          (t.rounding = true ∧ r.y % 2 = 0 ∧ p.2 < r.y + r.h + 1) →
        (rectInit (roundAdd t.rounding r).x (roundAdd t.rounding r).y
          (roundAdd t.rounding r).w (roundAdd t.rounding r).h).Covers (cellOf t.rounding p) := by
  rcases hSound.cols_spec with ⟨hCols, hColsMax⟩
  rcases hSound.rows_spec with ⟨hRows, hRowsMax⟩
  rcases hPlaced with ⟨hx, hy, hw, hh, hRight, hBottom⟩
  unfold roundAdd cellOf
  cases hRounding : t.rounding with
  | false =>
    rw [hRounding] at hCols hRows
    simp only [Bool.false_eq_true, if_false] at hCols hRows ⊢
    rcases rectInit_inBox hColsMax hRowsMax hx (by omega) (by omega :
        0 ≤ r.x + r.w) (by omega) hy (by omega) (by omega :
        0 ≤ r.y + r.h) (by omega) with ⟨hBox, hEndX, hEndY⟩
    refine ⟨hBox, ?_⟩
    intro p h₁ h₂ h₃ h₄
    simp only [false_and, or_false] at h₂ h₄
    unfold Rect.Covers
    rw [hEndX, hEndY]
    simp only [rectInit]
    omega
  | true =>
    have hFitX := (hSound.fits.1.1 hRounding).1
    have hFitY := (hSound.fits.2.1 hRounding).1
    rw [hRounding] at hCols hRows
    simp only [if_true] at hCols hRows ⊢
    have hWrapW : wrap (r.w + 2) = r.w + 2 := wrap_of_le hFitX (by omega) (by omega)
    have hWrapH : wrap (r.h + 2) = r.h + 2 := wrap_of_le hFitY (by omega) (by omega)
    rw [hWrapW, hWrapH]
    unfold half
    rcases rectInit_inBox hColsMax hRowsMax (x := r.x / 2) (w :=
        (r.w + 2) / 2) (y := r.y / 2) (h := (r.h + 2) / 2) (by omega)
        (by omega) (by omega) (by omega) (by omega) (by omega)
        (by omega) (by omega) with ⟨hBox, hEndX, hEndY⟩
    refine ⟨hBox, ?_⟩
    intro p h₁ h₂ h₃ h₄
    simp only [true_and] at h₂ h₄
    unfold Rect.Covers
    rw [hEndX, hEndY]
    simp only [rectInit]
    omega

/- `_splitter_rect_add` keeps what is shown, and adds cells. -/
theorem splitterRectAdd_spec {fuel : Nat} {t' : Tiler} (hSound : t.Sound) (hPlaced : t.Placed r)
    (hAdd : splitterRectAdd fuel t r = some t') :
    t'.Sound ∧ t' = { t with rects := t'.rects } ∧ (∀ p, t.Shows p → t'.Shows p) ∧ ∀ p : Pixel,
      r.x ≤ p.1 → p.1 < r.x + r.w ∨
        (t.rounding = true ∧ r.x % 2 = 0 ∧ p.1 < r.x + r.w + 1) →
      r.y ≤ p.2 → p.2 < r.y + r.h ∨
        (t.rounding = true ∧ r.y % 2 = 0 ∧ p.2 < r.y + r.h + 1) →
      t'.Shows p := by
  rcases roundAdd_spec hSound hPlaced with ⟨hBox, hCovers⟩
  unfold splitterRectAdd at hAdd
  simp only [bind_eq_bind, bind_eq_some_iff] at hAdd
  rcases hAdd with ⟨rects, hAdd, hEq⟩
  obtain rfl := some.inj hEq
  rcases covered_addSplitFuzzyAndMerge hSound.cols_spec.2
    hSound.rows_spec.2 hSound.inBox hBox hAdd with ⟨hDone, hCover⟩
  refine ⟨⟨hSound.area, hSound.tileW_pos, hSound.tileH_pos, hSound.fits, hDone⟩, rfl, ?_, ?_⟩
  · intro p hp
    exact hCover _ (Or.inr hp)
  · intro p h₁ h₂ h₃ h₄
    exact hCover _ (Or.inl (hCovers p h₁ h₂ h₃ h₄))

---
-- Deletions
---

/- The cells of a deleted rectangle lie inside it. -/
theorem roundDel_spec (rounding : Bool) (hX : 0 ≤ r.x) (hY : 0 ≤ r.y)
    (hRight : r.x + r.w ≤ intMax) (hBottom : r.y + r.h ≤ intMax) (hW : 0 ≤ r.w) (hH : 0 ≤ r.h)
    (hValid : 0 < (roundDel rounding r).w ∧
      0 < (roundDel rounding r).h) :
    InBox intMax intMax (rectInit (roundDel rounding r).x (roundDel
        rounding r).y (roundDel rounding r).w (roundDel rounding r).h) ∧
        ∀ p : Pixel, (rectInit (roundDel rounding r).x
        (roundDel rounding r).y (roundDel rounding r).w (roundDel
        rounding r).h).Covers (cellOf rounding p) → p ∈ r.pixels := by
  unfold roundDel at hValid ⊢
  unfold cellOf
  cases hRounding : rounding with
  | false =>
    simp only [Bool.false_eq_true, if_false]
    rcases rectInit_inBox (Int.le_refl intMax) (Int.le_refl intMax) hX
        (by omega) (by omega : 0 ≤ r.x + r.w) (by omega) hY (by omega)
        (by omega : 0 ≤ r.y + r.h) (by omega) with ⟨hBox, hEndX, hEndY⟩
    refine ⟨hBox, ?_⟩
    intro p hp
    unfold Rect.Covers at hp
    rw [hEndX, hEndY] at hp
    simp only [rectInit] at hp
    rw [Rectangle.mem_pixels]
    omega
  | true =>
    rw [hRounding] at hValid
    simp only [if_true] at hValid ⊢
    have hWrapW : wrap (r.w - 1) = r.w - 1 := wrap_of_le (Int.le_refl _) (by omega) (by omega)
    have hWrapH : wrap (r.h - 1) = r.h - 1 := wrap_of_le (Int.le_refl _) (by omega) (by omega)
    rw [hWrapW, hWrapH] at hValid
    unfold half at hValid ⊢
    have hWrapX : wrap (r.x + 1) = r.x + 1 := wrap_of_le (Int.le_refl _) (by omega) (by omega)
    have hWrapY : wrap (r.y + 1) = r.y + 1 := wrap_of_le (Int.le_refl _) (by omega) (by omega)
    rw [hWrapX, hWrapY, hWrapW, hWrapH]
    rcases rectInit_inBox (Int.le_refl intMax) (Int.le_refl intMax)
        (x := (r.x + 1) / 2) (w := (r.w - 1) / 2) (y := (r.y + 1) / 2)
        (h := (r.h - 1) / 2) (by omega) (by omega) (by omega) (by omega)
        (by omega) (by omega) (by omega) (by omega) with ⟨hBox, hEndX, hEndY⟩
    refine ⟨hBox, ?_⟩
    intro p hp
    unfold Rect.Covers at hp
    rw [hEndX, hEndY] at hp
    simp only [rectInit] at hp
    rw [Rectangle.mem_pixels]
    omega

/-
  `_splitter_rect_del` keeps what is outside the rectangle,
  which need not lie in the area.
-/
theorem splitterRectDel_spec (hSound : t.Sound) (hX : 0 ≤ r.x)
    (hY : 0 ≤ r.y) (hRight : r.x + r.w ≤ intMax)
    (hBottom : r.y + r.h ≤ intMax) (hW : 0 ≤ r.w) (hH : 0 ≤ r.h) :
    (splitterRectDel t r).Sound ∧
      (∃ rects needMerge, splitterRectDel t r =
        { t with
          rects := rects
          needMerge := needMerge }) ∧
      ∀ p, t.Shows p → p ∈ r.pixels ∨ (splitterRectDel t r).Shows p := by
  unfold splitterRectDel
  split
  · exact ⟨hSound, ⟨t.rects, t.needMerge, rfl⟩, fun p hp => Or.inr hp⟩
  · dsimp only
    split
    · exact ⟨hSound, ⟨t.rects, t.needMerge, rfl⟩, fun p hp => Or.inr hp⟩
    · rename_i hValid
      rcases roundDel_spec t.rounding hX hY hRight hBottom hW hH (by omega) with ⟨hBox, hInside⟩
      rcases covered_delSplitStrict hSound.cols_spec.2
        hSound.rows_spec.2 hBox hSound.inBox with ⟨hDone, hCover⟩
      refine ⟨⟨hSound.area, hSound.tileW_pos, hSound.tileH_pos,
        hSound.fits, hDone⟩, ⟨_, _, rfl⟩, ?_⟩
      intro p hp
      rcases hCover _ hp with h | h
      · exact Or.inl (hInside p h)
      · exact Or.inr h

---
-- The Iterator
---

theorem roundUp_mono (hTile : 0 < tile) (hLe : m ≤ n) : roundUp tile m ≤ roundUp tile n := by
  unfold roundUp
  apply Int.mul_le_mul_of_nonneg_left _ (Int.le_of_lt hTile)
  exact Int.ediv_le_ediv hTile (by omega)

theorem roundUp_roundUp (hTile : 0 < tile) : roundUp tile (roundUp tile m) = roundUp tile m := by
  unfold roundUp
  congr 1
  generalize (m + tile - 1) / tile = q
  rw [show tile * q + tile - 1 = (tile - 1) + tile * q by
    omega, Int.add_mul_ediv_left _ _ (by omega),
    Int.ediv_eq_zero_of_lt (by omega) (by omega)]
  omega

/- One axis of `roundTiles`: both ends move outwards. -/
theorem roundTiles_axis {rounding : Bool} {a b size : Int}
    (hTile : 0 < tile) (hFits : AxisFits rounding true n tile)
    (hA : 0 ≤ a) (hA' : a ≤ axisCells rounding true n tile)
    (hB : 0 ≤ b) (hB' : b ≤ axisCells rounding true n tile)
    (hSize : size = b - a) :
    ∃ a' b',
      wrap (tile * a.tdiv tile) = a' ∧ wrap (tile * (wrap (wrap (wrap (a + size) + tile) - 1)).tdiv
        tile) = b' ∧
      0 ≤ a' ∧ a' ≤ a ∧ b ≤ b' ∧ b' ≤ axisCells rounding true n tile := by
  have hMax := hFits.2 rfl
  have hUpIdem : roundUp tile (axisCells rounding true n tile) =
        axisCells rounding true n tile := by
    unfold axisCells
    simp only [if_true]
    exact roundUp_roundUp hTile
  have hUp : roundUp tile b ≤ axisCells rounding true n tile := by
    rw [← hUpIdem]
    exact roundUp_mono hTile hB'
  have hUp' := le_roundUp (m := b) hTile
  have hDown := Int.mul_ediv_self_le (x := a) (k := tile) (by omega)
  have hDown' : 0 ≤ tile * (a / tile) := Int.mul_nonneg (by omega) (Int.ediv_nonneg hA (by omega))
  unfold intMax at hMax
  have hEnd : wrap (a + size) = b := by
    rw [hSize, show a + (b - a) = b by omega]
    apply wrap_of_inRange
    unfold CInt.InRange
    omega
  have hSum : wrap (wrap (b + tile) - 1) = b + tile - 1 := by
    rw [wrap_of_inRange (x := b + tile) (by unfold CInt.InRange; omega)]
    apply wrap_of_inRange
    unfold CInt.InRange
    omega
  refine ⟨tile * (a / tile), roundUp tile b, ?_, ?_, hDown', hDown, hUp', hUp⟩
  · rw [Int.tdiv_eq_ediv_of_nonneg hA]
    apply wrap_of_inRange
    unfold CInt.InRange
    omega
  · rw [hEnd, hSum, Int.tdiv_eq_ediv_of_nonneg (by omega)]
    apply wrap_of_inRange
    unfold CInt.InRange
    unfold roundUp at hUp hUp'
    omega

section

variable (hSound : t.Sound)

include hSound

/- A rectangle rounded up to tiles covers the old one. -/
theorem roundTiles_spec {r : Rect}
    (hStrict : t.strict = true) (hBox : InBox t.cols t.rows r) :
    InBox t.cols t.rows (t.roundTiles r) ∧ ∀ p, r.Covers p → (t.roundTiles r).Covers p := by
  have hFits := hSound.fits
  have hCols := hSound.cols_spec.2
  have hRows := hSound.rows_spec.2
  rcases hBox with ⟨r₁, r₂, r₃, r₄, r₅, r₆, r₇, r₈, r₉, r₁₀⟩
  unfold Fits at hFits
  unfold cols rows at *
  rw [hStrict] at *
  rcases roundTiles_axis hSound.tileW_pos hFits.1 r₁ r₂ r₃ r₄ r₉ with ⟨x₁, x₂, hx₁, hx₂, hx⟩
  rcases roundTiles_axis hSound.tileH_pos hFits.2 r₅ r₆ r₇ r₈ r₁₀ with ⟨y₁, y₂, hy₁, hy₂, hy⟩
  unfold roundTiles
  simp only [hx₁, hx₂, hy₁, hy₂]
  rw [wrap_sub hCols (a := x₂) (b := x₁) (by omega) (by omega)
    (by omega) (by omega), wrap_sub hRows (a := y₂) (b := y₁) (by omega)
    (by omega) (by omega) (by omega)]
  rcases rectInit_inBox hCols hRows (x := x₁) (w := x₂ - x₁) (y := y₁) (h := y₂ - y₁) (by omega)
      (by omega) (by omega) (by omega) (by omega) (by omega)
      (by omega) (by omega) with ⟨hBox, hEndX, hEndY⟩
  refine ⟨hBox, ?_⟩
  intro p hp
  unfold Rect.Covers at hp ⊢
  rw [hEndX, hEndY]
  simp only [rectInit]
  omega

/- The loop of strict mode keeps all cells. -/
theorem covered_roundRects {fuel : Nat} {rects toMerge result : List Rect}
    (hStrict : t.strict = true) (hBox : AllInBox t.cols t.rows rects)
    (hMore : AllInBox t.cols t.rows toMerge)
    (hRound : roundRects fuel t rects toMerge = some result) :
    AllInBox t.cols t.rows result ∧
      ∀ p, Covered rects p ∨ Covered toMerge p → Covered result p := by
  induction rects generalizing toMerge with
  | nil =>
    obtain rfl := some.inj hRound
    exact ⟨hMore, fun p hp => by simpa using hp⟩
  | cons r rects ih =>
    rw [allInBox_cons] at hBox
    simp only [roundRects, bind_eq_bind, bind_eq_some_iff] at hRound
    rcases hRound with ⟨next, hAdd, hRest⟩
    rcases roundTiles_spec hSound hStrict hBox.1 with ⟨hTiles, hTileCover⟩
    rcases covered_addSplitFuzzyAndMerge hSound.cols_spec.2
      hSound.rows_spec.2 hMore hTiles hAdd with ⟨hNext, hNextCover⟩
    rcases ih hBox.2 hNext hRest with ⟨hDone, hCover⟩
    refine ⟨hDone, ?_⟩
    intro p hp
    apply hCover
    rw [covered_cons] at hp
    rcases hp with (hp | hp) | hp
    · exact Or.inr (hNextCover p (Or.inl (hTileCover p hp)))
    · exact Or.inl hp
    · exact Or.inr (hNextCover p (Or.inr hp))

/- Preparing the iterator keeps what is shown. -/
theorem iteratorNew_spec {fuel : Nat} {t' : Tiler}
    (hNew : iteratorNew fuel t = some t') :
    t'.Sound ∧
      (∃ rects needMerge, t' =
        { t with
          rects := rects
          needMerge := needMerge }) ∧
      ∀ p, t.Shows p → t'.Shows p := by
  -- Whatever is merged covers what was there.
  have hMerged : ∀ toMerge rects,
      AllInBox t.cols t.rows toMerge →
      (∀ p, Covered t.rects p → Covered toMerge p) →
      mergeRects t.tileArea fuel [] toMerge = some rects →
      t' = { t with rects := rects, needMerge := false } →
      t'.Sound ∧ (∃ rects needMerge, t' =
          { t with
            rects := rects
            needMerge := needMerge }) ∧
        ∀ p, t.Shows p → t'.Shows p := by
    rintro toMerge rects hBoxes hKept hMerge rfl
    rcases covered_mergeRects hSound.cols_spec.2
      hSound.rows_spec.2 (by simp) hBoxes hMerge with ⟨hDone, hCover⟩
    refine ⟨⟨hSound.area, hSound.tileW_pos, hSound.tileH_pos, hSound.fits, hDone⟩, ⟨_, _, rfl⟩, ?_⟩
    intro p hp
    exact hCover _ (Or.inr (hKept _ hp))
  unfold iteratorNew at hNew
  split at hNew
  · split at hNew
    · rename_i hStrict
      simp only [bind_eq_bind, bind_eq_some_iff] at hNew
      rcases hNew with ⟨toMerge, hRound, rects, hMerge, hEq⟩
      rcases covered_roundRects hSound hStrict hSound.inBox (by simp) hRound with ⟨hBoxes, hCover⟩
      exact hMerged toMerge rects hBoxes (fun p hp =>
        hCover p (Or.inl hp)) hMerge (some.inj hEq).symm
    · simp only [bind_eq_bind, bind_some, bind_eq_some_iff] at hNew
      rcases hNew with ⟨rects, hMerge, hEq⟩
      exact hMerged t.rects rects hSound.inBox (fun p hp => hp) hMerge (some.inj hEq).symm
  · obtain rfl := some.inj hNew
    exact ⟨hSound, ⟨t.rects, t.needMerge, rfl⟩, fun p hp => hp⟩

/- The rectangle of a node, in pixels. -/
def pixelRect (t : Tiler) (cur : Rect) : Rectangle :=
  if t.rounding then
    ⟨twice cur.left, twice cur.top, twice cur.width,
      twice cur.height⟩
  else
    ⟨cur.left, cur.top, cur.width, cur.height⟩

/- It has the pixels of the cells of the node. -/
theorem pixelRect_spec {cur : Rect}
    (hBox : InBox t.cols t.rows cur) :
    (t.pixelRect cur).InRange ∧
      (t.pixelRect cur).x + (t.pixelRect cur).w ≤ intMax ∧
      (t.pixelRect cur).y + (t.pixelRect cur).h ≤ intMax ∧
      (∀ p, p ∈ (t.pixelRect cur).pixels ↔
        cur.Covers (cellOf t.rounding p)) ∧
      (t.rounding = true → (t.pixelRect cur).x % 2 = 0 ∧ (t.pixelRect cur).y % 2 = 0) := by
  have hCols := hSound.cols_spec.2
  have hRows := hSound.rows_spec.2
  have hFits := hSound.fits
  rcases hBox with ⟨r₁, r₂, r₃, r₄, r₅, r₆, r₇, r₈, r₉, r₁₀⟩
  unfold Rectangle.InRange CInt.InRange
  simp only [Rectangle.mem_pixels]
  unfold Rect.Covers pixelRect cellOf
  unfold intMax at *
  cases hRounding : t.rounding with
  | false =>
    simp only [Bool.false_eq_true, if_false, false_implies]
    refine ⟨by omega, by omega, by omega, ?_, trivial⟩
    intro p
    omega
  | true =>
    have hFitX := (hFits.1.1 hRounding).2
    have hFitY := (hFits.2.1 hRounding).2
    have hX : axisCells t.rounding t.strict t.area.w t.tileW = t.cols := rfl
    have hY : axisCells t.rounding t.strict t.area.h t.tileH = t.rows := rfl
    rw [hX] at hFitX
    rw [hY] at hFitY
    unfold intMax at hFitX hFitY
    have hTwice : ∀ x, -t.cols ≤ x ∧ x ≤ t.cols ∨ -t.rows ≤ x ∧ x ≤ t.rows → twice x = x * 2 := by
      intro x hx
      unfold twice
      apply wrap_of_inRange
      unfold CInt.InRange
      omega
    rw [hTwice cur.left (by omega), hTwice cur.top (by omega),
      hTwice cur.width (by omega), hTwice cur.height (by omega)]
    simp only [if_true]
    refine ⟨by omega, by omega, by omega, ?_, ?_⟩
    · intro p
      omega
    · intro _
      omega

end

theorem iteratorPass_eq (t : Tiler) (cur : Rect) :
    t.iteratorPass cur = ((Rectangle.intersection (t.pixelRect cur) t.area).1,
      (Rectangle.intersection (t.pixelRect cur) t.area).2 && !(decide
      ((Rectangle.intersection (t.pixelRect cur) t.area).1.w ≤ 0) ||
            decide ((Rectangle.intersection (t.pixelRect cur) t.area).1.h ≤ 0))) := by
  unfold iteratorPass pixelRect
  rfl

/- What the iterator passes on is the part in the area. -/
theorem iteratorPass_true {cur : Rect} (hSound : t.Sound) (hBox : InBox t.cols t.rows cur)
    (hPass : t.iteratorPass cur = (r, true)) :
    r.Inside t.area ∧
      (∀ p, p ∈ r.pixels ↔ cur.Covers (cellOf t.rounding p) ∧
        p ∈ t.area.pixels) ∧
      (t.rounding = true → r.x % 2 = 0 ∧ r.y % 2 = 0) := by
  rcases pixelRect_spec hSound hBox with ⟨hRange, hEndX, hEndY, hPixels, hEven⟩
  rw [iteratorPass_eq] at hPass
  rcases hCall : Rectangle.intersection (t.pixelRect cur) t.area with ⟨r', meets⟩
  rw [hCall] at hPass
  simp only [Prod.mk.injEq, Bool.and_eq_true] at hPass
  rcases hPass with ⟨rfl, rfl, -⟩
  rcases Rectangle.intersection_true hSound.area hRange hCall with ⟨hInside, hEq, hX, hY⟩
  refine ⟨hInside, ?_, ?_⟩
  · intro p
    rw [hEq, Set.mem_inter_iff, hPixels]
  · intro hRounding
    have hCorner := hEven hRounding
    omega

/- A node with a pixel in the area is passed on. -/
theorem iteratorPass_of_covers {cur : Rect} {p : Pixel}
    (hSound : t.Sound) (hBox : InBox t.cols t.rows cur) (hCovers : cur.Covers (cellOf t.rounding p))
    (hArea : p ∈ t.area.pixels) : ∃ r, t.iteratorPass cur = (r, true) := by
  rcases pixelRect_spec hSound hBox with ⟨hRange, hEndX, hEndY, hPixels, -⟩
  rw [iteratorPass_eq]
  rcases hCall : Rectangle.intersection (t.pixelRect cur) t.area with ⟨r, meets⟩
  cases meets with
  | false =>
    have hEmpty := Rectangle.intersection_false hSound.area hRange hEndX hEndY hCall
    have hMem : p ∈ (t.pixelRect cur).pixels ∩ t.area.pixels := ⟨(hPixels p).mpr hCovers, hArea⟩
    rw [hEmpty] at hMem
    exact hMem.elim
  | true =>
    have hInside := (Rectangle.intersection_true hSound.area hRange hCall).1
    have hW := hInside.w_pos
    have hH := hInside.h_pos
    refine ⟨r, ?_⟩
    simp only [Bool.true_and, Prod.mk.injEq, true_and,
      Bool.not_eq_true', Bool.or_eq_false_iff, decide_eq_false_iff_not]
    omega

theorem mem_yielded : r ∈ t.yielded ↔ ∃ cur ∈ t.rects, t.iteratorPass cur = (r, true) := by
  unfold yielded
  simp only [List.mem_map, List.mem_filter, Prod.exists]
  constructor
  · rintro ⟨r', b, ⟨⟨cur, hMem, hPass⟩, rfl⟩, rfl⟩
    exact ⟨cur, hMem, hPass⟩
  · rintro ⟨cur, hMem, hPass⟩
    exact ⟨r, true, ⟨⟨cur, hMem, hPass⟩, rfl⟩, rfl⟩

/- The pixels of a list of rectangles. -/
def PixelsOf (rs : List Rectangle) (p : Pixel) : Prop :=
  ∃ r ∈ rs, p ∈ r.pixels

/- The iterator covers what is shown in the area. -/
theorem yielded_covers {p : Pixel} (hSound : t.Sound) :
    PixelsOf t.yielded p ↔ t.Shows p ∧ p ∈ t.area.pixels := by
  constructor
  · rintro ⟨r, hMem, hp⟩
    rcases mem_yielded.mp hMem with ⟨cur, hCur, hPass⟩
    have hPixel := ((iteratorPass_true hSound (hSound.inBox cur hCur) hPass).2.1 p).mp hp
    exact ⟨⟨cur, hCur, hPixel.1⟩, hPixel.2⟩
  · rintro ⟨⟨cur, hCur, hCovers⟩, hArea⟩
    have hBox := hSound.inBox cur hCur
    rcases iteratorPass_of_covers hSound hBox hCovers hArea with ⟨r, hPass⟩
    exact ⟨r, mem_yielded.mpr ⟨cur, hCur, hPass⟩,
      ((iteratorPass_true hSound hBox hPass).2.1 p).mpr ⟨hCovers, hArea⟩⟩

end Efl.Eina.Tiler
