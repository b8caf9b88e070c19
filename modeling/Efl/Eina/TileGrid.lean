import Efl.Eina.Rectangle
import Mathlib.Data.List.Flatten
import Mathlib.Data.Set.Lattice

/-
  The slicer of a grid of tiles, `eina_inline_tiler.x`.

  Main declarations:
    * `TileGrid.Slicer`
    * `TileGrid.setup`, `TileGrid.next`
    * `TileGrid.slices_eq`
    * `TileGrid.slices_correct`
-/

---
-- The Slicer
---

namespace Efl.Eina.TileGrid

open CInt

/- `Eina_Tile_Grid_Info` -/
structure Info where
  col : Nat
  row : Nat
  rect : Rectangle
  full : Bool
  deriving DecidableEq

/- `Eina_Tile_Grid_Slicer` -/
structure Slicer where
  col1 : Nat
  col2 : Nat
  row1 : Nat
  row2 : Nat
  tileW : Int
  tileH : Int
  xRel : Int
  yRel : Int
  w1Rel : Int
  h1Rel : Int
  w2Rel : Int
  h2Rel : Int
  info : Info
  first : Bool

/- The rectangle is the whole tile. -/
def isFull (slc : Slicer) (r : Rectangle) : Bool :=
  r.w = slc.tileW ∧ r.h = slc.tileH

/-
  `eina_tile_grid_slicer_next`: the slicer with the info, and
  what the call returns.
-/
def next (slc : Slicer) : Slicer × Bool :=
  if slc.first then
    ({ slc with first := false }, true)
  else
    let col := slc.info.col + 1
    if slc.col2 < col then
      let row := slc.info.row + 1
      if slc.row2 < row then
        ({ slc with
            info := { slc.info with
              col := col
              row := row } }, false)
      else
        let rect : Rectangle :=
          { x := slc.xRel
            y := 0
            w := slc.w1Rel
            h := if row < slc.row2 then slc.tileH
              else slc.h2Rel }
        ({ slc with
            info :=
              { col := slc.col1
                row := row
                rect := rect
                full := isFull slc rect } }, true)
    else
      let rect : Rectangle :=
        { slc.info.rect with
          x := 0
          w := if col < slc.col2 then slc.tileW
            else slc.w2Rel }
      ({ slc with
          info :=
            { slc.info with
              col := col
              rect := rect
              full := isFull slc rect } }, true)

/-
  `eina_tile_grid_slicer_setup`, with what was in the slicer
  before.
-/
def setup (slc : Slicer) (x y w h tileW tileH : Int) : Slicer :=
  let tx2 := wrap (wrap (x + w) - 1)
  let ty2 := wrap (wrap (y + h) - 1)
  if x < 0 ∨ y < 0 ∨ w ≤ 0 ∨ h ≤ 0 ∨ tileW ≤ 0 ∨
      tileH ≤ 0 then
    { slc with
      first := false
      col1 := 0
      row1 := 0
      col2 := 0
      row2 := 0
      info := { slc.info with
        col := 0
        row := 0 } }
  else
    let col1 := (x.tdiv tileW).toNat
    let row1 := (y.tdiv tileH).toNat
    let col2 := (tx2.tdiv tileW).toNat
    let row2 := (ty2.tdiv tileH).toNat
    let xRel := x.tmod tileW
    let yRel := y.tmod tileH
    let w2Rel := wrap (tx2.tmod tileW + 1)
    let h2Rel := wrap (ty2.tmod tileH + 1)
    let w1Rel :=
      if col1 = col2 then wrap (w2Rel - xRel)
      else wrap (tileW - xRel)
    let h1Rel :=
      if row1 = row2 then wrap (h2Rel - yRel)
      else wrap (tileH - yRel)
    { col1, col2, row1, row2, tileW, tileH, xRel, yRel,
      w1Rel, h1Rel, w2Rel, h2Rel
      info :=
        { col := col1
          row := row1
          rect := ⟨xRel, yRel, w1Rel, h1Rel⟩
          full := w1Rel = tileW ∧ h1Rel = tileH }
      first := true }

/-
  What a slicer gives until it returns `EINA_FALSE`; `none` is
  a slicer that has not ended.
-/
def slices : Nat → Slicer → Option (List Info)
  | 0, _ => none
  | fuel + 1, slc =>
    let (slc, more) := next slc
    if more then
      (slices fuel slc).map fun infos => slc.info :: infos
    else
      some []

example :
    slices 9 (setup ⟨0, 0, 0, 0, 0, 0, 0, 0, 0, 0, 0, 0,
      ⟨0, 0, ⟨0, 0, 0, 0⟩, false⟩, false⟩ 3 1 6 2 4 4) =
      some
        [⟨0, 0, ⟨3, 1, 1, 2⟩, false⟩,
          ⟨1, 0, ⟨0, 1, 4, 2⟩, false⟩,
          ⟨2, 0, ⟨0, 1, 1, 2⟩, false⟩] := by
  decide

---
-- One Axis
---

/- The part of a span that is in tile `k`: where it starts. -/
def partStart (x t : Int) (k : Nat) : Int :=
  max x (k * t) - k * t

/- Its length -/
def partLength (x w t : Int) (k : Nat) : Int :=
  min (x + w) ((k + 1) * t) - max x (k * t)

/- The first and the last tile that a span meets -/
def firstTile (x t : Int) : Nat :=
  (x / t).toNat

def lastTile (x w t : Int) : Nat :=
  ((x + w - 1) / t).toNat

section

variable {x w t : Int} (hX : 0 ≤ x) (hW : 0 < w) (hT : 0 < t)

theorem mul_le_of_lt {k m : Nat} (hT : 0 < t) (hLt : k < m) : ((k : Int) + 1) * t ≤ m * t :=
  Int.mul_le_mul_of_nonneg_right (by omega) (le_of_lt hT)

theorem tdiv_eq (hX : 0 ≤ x) : (x.tdiv t).toNat = firstTile x t := by
  unfold firstTile
  rw [Int.tdiv_eq_ediv_of_nonneg hX]

theorem firstTile_le_lastTile (hW : 0 < w) (hT : 0 < t) : firstTile x t ≤ lastTile x w t := by
  unfold firstTile lastTile
  have hDiv : x / t ≤ (x + w - 1) / t := Int.ediv_le_ediv hT (by omega)
  omega

include hX hT

theorem firstTile_bounds : firstTile x t * t ≤ x ∧ x < ((firstTile x t : Int) + 1) * t := by
  unfold firstTile
  have hDiv : 0 ≤ x / t := Int.ediv_nonneg hX (le_of_lt hT)
  rw [Int.toNat_of_nonneg hDiv]
  constructor
  · exact Int.ediv_mul_le x (ne_of_gt hT)
  · have hMod := Int.emod_lt_of_pos x hT
    have hSplit := Int.mul_ediv_add_emod x t
    rw [add_mul, one_mul, mul_comm]
    omega

theorem tmod_eq : x.tmod t = x - firstTile x t * t := by
  unfold firstTile
  have hDiv : 0 ≤ x / t := Int.ediv_nonneg hX (le_of_lt hT)
  have hSplit := Int.mul_ediv_add_emod x t
  rw [Int.toNat_of_nonneg hDiv, Int.tmod_eq_emod_of_nonneg hX, mul_comm]
  omega

theorem partStart_first : partStart x t (firstTile x t) = x - firstTile x t * t := by
  have hFirst := firstTile_bounds hX hT
  unfold partStart
  omega

theorem partStart_later {k : Nat} (hLater : firstTile x t < k) : partStart x t k = 0 := by
  have hFirst := firstTile_bounds hX hT
  have hMul := mul_le_of_lt hT hLater
  unfold partStart
  omega

/- A place of the span is in exactly one part. -/
theorem mem_part_iff {k : Nat} {p : Int} :
    (firstTile x t ≤ k ∧ k ≤ lastTile x w t ∧
      k * t + partStart x t k ≤ p ∧
      p < k * t + partStart x t k + partLength x w t k) ↔
      (x ≤ p ∧ p < x + w) ∧ firstTile p t = k := by
  have hStart : k * t + partStart x t k = max x (k * t) := by
    unfold partStart
    omega
  have hEnd : max x (k * t) + partLength x w t k = min (x + w) ((k + 1) * t) := by
    unfold partLength
    omega
  rw [hStart, hEnd, max_le_iff, lt_min_iff]
  constructor
  · rintro ⟨-, -, ⟨hFrom, hLow⟩, hTo, hHigh⟩
    refine ⟨⟨hFrom, hTo⟩, ?_⟩
    unfold firstTile
    rw [Int.ediv_eq_iff_of_pos hT |>.mpr ⟨?_, ?_⟩, Int.toNat_natCast]
    · exact hLow
    · rw [add_mul, one_mul] at hHigh
      exact hHigh
  · rintro ⟨⟨hFrom, hTo⟩, rfl⟩
    have hTile := firstTile_bounds (show 0 ≤ p by omega) hT
    refine ⟨?_, ?_, ⟨hFrom, hTile.1⟩, hTo, hTile.2⟩
    · have hDiv : x / t ≤ p / t := Int.ediv_le_ediv hT hFrom
      unfold firstTile
      omega
    · have hDiv : p / t ≤ (x + w - 1) / t := Int.ediv_le_ediv hT (by omega)
      unfold firstTile lastTile
      omega

include hW

theorem lastTile_bounds :
    lastTile x w t * t ≤ x + w - 1 ∧
      x + w - 1 < ((lastTile x w t : Int) + 1) * t :=
  firstTile_bounds (show 0 ≤ x + w - 1 by omega) hT

theorem partLength_single (hSingle : firstTile x t = lastTile x w t) :
    partLength x w t (firstTile x t) = w := by
  have hFirst := firstTile_bounds hX hT
  have hLast := lastTile_bounds hX hW hT
  rw [← hSingle] at hLast
  unfold partLength
  omega

theorem partLength_first (hMore : firstTile x t < lastTile x w t) :
    partLength x w t (firstTile x t) = t - (x - firstTile x t * t) := by
  have hFirst := firstTile_bounds hX hT
  have hLast := lastTile_bounds hX hW hT
  have hMul := mul_le_of_lt hT hMore
  rw [add_mul, one_mul] at hFirst hMul
  unfold partLength
  rw [add_mul, one_mul]
  omega

theorem partLength_inner {k : Nat} (hLater : firstTile x t < k)
    (hMore : k < lastTile x w t) : partLength x w t k = t := by
  have hFirst := firstTile_bounds hX hT
  have hLast := lastTile_bounds hX hW hT
  have hMul := mul_le_of_lt hT hLater
  have hMul' := mul_le_of_lt hT hMore
  rw [add_mul, one_mul] at hMul'
  unfold partLength
  rw [add_mul, one_mul]
  omega

theorem partLength_last (hLater : firstTile x t < lastTile x w t) :
    partLength x w t (lastTile x w t) = x + w - lastTile x w t * t := by
  have hFirst := firstTile_bounds hX hT
  have hLast := lastTile_bounds hX hW hT
  have hMul := mul_le_of_lt hT hLater
  unfold partLength
  omega

/- Every part lies in its tile, and is not empty. -/
theorem part_bounds {k : Nat} (hFrom : firstTile x t ≤ k)
    (hTo : k ≤ lastTile x w t) :
    0 ≤ partStart x t k ∧ 0 < partLength x w t k ∧ partStart x t k + partLength x w t k ≤ t := by
  have hFirst := firstTile_bounds hX hT
  have hLast := lastTile_bounds hX hW hT
  have hLow : ((firstTile x t : Int) + 1) * t ≤ (k + 1) * t :=
    Int.mul_le_mul_of_nonneg_right (by omega) (le_of_lt hT)
  have hHigh : (k : Int) * t ≤ lastTile x w t * t :=
    Int.mul_le_mul_of_nonneg_right (by omega) (le_of_lt hT)
  rw [add_mul, one_mul] at hFirst hLow
  rw [add_mul, one_mul] at hLow
  unfold partStart partLength
  rw [add_mul, one_mul]
  omega

end

---
-- The Sequence
---

open List Option

/- What the slicer is set up for -/
structure Region where
  x : Int
  y : Int
  w : Int
  h : Int
  tileW : Int
  tileH : Int

/- All are `int` values, and so are the last column and row. -/
structure Region.Valid (g : Region) : Prop where
  x_nonneg : 0 ≤ g.x
  y_nonneg : 0 ≤ g.y
  w_pos : 0 < g.w
  h_pos : 0 < g.h
  tileW_pos : 0 < g.tileW
  tileH_pos : 0 < g.tileH
  right_le : g.x + g.w - 1 ≤ intMax
  bottom_le : g.y + g.h - 1 ≤ intMax
  w_le : g.w ≤ intMax
  h_le : g.h ≤ intMax
  tileW_le : g.tileW ≤ intMax
  tileH_le : g.tileH ≤ intMax

namespace Region

variable (g : Region)

def col1 : Nat :=
  firstTile g.x g.tileW

def col2 : Nat :=
  lastTile g.x g.w g.tileW

def row1 : Nat :=
  firstTile g.y g.tileH

def row2 : Nat :=
  lastTile g.y g.h g.tileH

/- The part of the region that is in one tile -/
def part (row col : Nat) : Rectangle where
  x := partStart g.x g.tileW col
  y := partStart g.y g.tileH row
  w := partLength g.x g.w g.tileW col
  h := partLength g.y g.h g.tileH row

def infoAt (row col : Nat) : Info where
  col := col
  row := row
  rect := g.part row col
  full := (g.part row col).w = g.tileW ∧
    (g.part row col).h = g.tileH

/- The infos of one row, and all of them -/
def rowInfos (row : Nat) : List Info :=
  (List.range' g.col1 (g.col2 - g.col1 + 1)).map
    (g.infoAt row)

def infos : List Info :=
  (List.range' g.row1 (g.row2 - g.row1 + 1)).flatMap
    g.rowInfos

end Region

/- The slicer of a region that stands at one of its tiles -/
structure At (g : Region) (slc : Slicer) (row col : Nat) : Prop where
  col1_eq : slc.col1 = g.col1
  col2_eq : slc.col2 = g.col2
  row1_eq : slc.row1 = g.row1
  row2_eq : slc.row2 = g.row2
  tileW_eq : slc.tileW = g.tileW
  tileH_eq : slc.tileH = g.tileH
  xRel_eq : slc.xRel = partStart g.x g.tileW g.col1
  w1Rel_eq : slc.w1Rel = partLength g.x g.w g.tileW g.col1
  w2Rel_eq : slc.w2Rel = g.x + g.w - g.col2 * g.tileW
  h2Rel_eq : slc.h2Rel = g.y + g.h - g.row2 * g.tileH
  info_eq : slc.info = g.infoAt row col
  col_le : g.col1 ≤ col ∧ col ≤ g.col2
  row_le : g.row1 ≤ row ∧ row ≤ g.row2

section

variable {g : Region} {slc : Slicer}

/- The values that the setup computes for one axis -/
theorem axis_rel {x w t : Int} (hX : 0 ≤ x) (hW : 0 < w) (hT : 0 < t)
    (hEnd : x + w - 1 ≤ intMax) (hLength : w ≤ intMax)
    (hTile : t ≤ intMax) :
    wrap (wrap (x + w) - 1) = x + w - 1 ∧
      x.tmod t = partStart x t (firstTile x t) ∧
      wrap ((x + w - 1).tmod t + 1) = x + w - lastTile x w t * t ∧
      (if firstTile x t = lastTile x w t then
        wrap (x + w - lastTile x w t * t - partStart x t (firstTile x t))
      else wrap (t - partStart x t (firstTile x t))) = partLength x w t (firstTile x t) := by
  have hFirst := firstTile_bounds hX hT
  have hLast := lastTile_bounds hX hW hT
  rw [add_mul, one_mul] at hFirst hLast
  unfold intMax at hEnd hLength hTile
  rw [partStart_first hX hT]
  refine ⟨?_, tmod_eq hX hT, ?_, ?_⟩
  · unfold wrap
    omega
  · rw [tmod_eq (show 0 ≤ x + w - 1 by omega) hT,
      show firstTile (x + w - 1) t = lastTile x w t from rfl]
    unfold wrap
    omega
  · split
    case isTrue hSingle =>
      rw [partLength_single hX hW hT hSingle, hSingle]
      unfold wrap
      omega
    case isFalse hMore =>
      have hLe := firstTile_le_lastTile (x := x) hW hT
      rw [partLength_first hX hW hT (Nat.lt_of_le_of_ne hLe hMore)]
      unfold wrap
      omega

theorem setup_at (slc : Slicer) (hValid : g.Valid) :
    (setup slc g.x g.y g.w g.h g.tileW g.tileH).first = true ∧ At g
      (setup slc g.x g.y g.w g.h g.tileW g.tileH) g.row1 g.col1 := by
  rcases hValid with ⟨hX, hY, hW, hH, hTw, hTh, hRight, hBottom, hWMax, hHMax, hTwMax, hThMax⟩
  rcases axis_rel hX hW hTw hRight hWMax hTwMax with ⟨hTx2, hXRel, hW2, hW1⟩
  rcases axis_rel hY hH hTh hBottom hHMax hThMax with ⟨hTy2, hYRel, hH2, hH1⟩
  have hCol2 := tdiv_eq (t := g.tileW) (show 0 ≤ g.x + g.w - 1 by omega)
  have hRow2 := tdiv_eq (t := g.tileH) (show 0 ≤ g.y + g.h - 1 by omega)
  unfold setup
  rw [if_neg (by omega)]
  simp only [hTx2, hTy2, tdiv_eq hX, tdiv_eq hY, hCol2, hRow2, hXRel, hYRel, hW2, hH2]
  rw [show firstTile (g.x + g.w - 1) g.tileW =
      lastTile g.x g.w g.tileW from rfl,
    show firstTile (g.y + g.h - 1) g.tileH = lastTile g.y g.h g.tileH from rfl]
  rw [hW1, hH1]
  refine ⟨trivial, ?_⟩
  constructor
  case col_le => exact ⟨le_refl _, firstTile_le_lastTile hW hTw⟩
  case row_le => exact ⟨le_refl _, firstTile_le_lastTile hH hTh⟩
  all_goals rfl

/- One step within a row -/
theorem next_col {row col : Nat} (hValid : g.Valid)
    (hAt : At g slc row col) (hFirst : slc.first = false)
    (hMore : col < g.col2) :
    (next slc).2 = true ∧ (next slc).1.first = false ∧ At g (next slc).1 row (col + 1) := by
  rcases hValid with ⟨hX, -, hW, -, hTw, -⟩
  rcases hAt with ⟨h₁, h₂, h₃, h₄, h₅, h₆, h₇, h₈, h₉, h₁₀, hInfo, hCol, hRow⟩
  have hStart : partStart g.x g.tileW (col + 1) = 0 :=
    partStart_later hX hTw (Nat.lt_succ_of_le hCol.1)
  have hLength : (if col + 1 < g.col2 then g.tileW
      else g.x + g.w - g.col2 * g.tileW) = partLength g.x g.w g.tileW (col + 1) := by
    split
    case isTrue hInner =>
      exact (partLength_inner hX hW hTw (Nat.lt_succ_of_le hCol.1) hInner).symm
    case isFalse hLast =>
      have hEq : col + 1 = g.col2 := by omega
      rw [hEq]
      refine (partLength_last hX hW hTw ?_).symm
      exact Nat.lt_of_le_of_lt hCol.1 hMore
  have hIn : ¬ slc.col2 < slc.info.col + 1 := by
    rw [hInfo, h₂]
    exact Nat.not_lt_of_le hMore
  unfold next
  simp only [hFirst, Bool.false_eq_true, if_false]
  rw [if_neg hIn]
  refine ⟨rfl, rfl, ?_⟩
  constructor
  case info_eq =>
    simp only [hInfo, h₂, h₅, h₉, Region.infoAt, Region.part, hStart, hLength, isFull, h₆]
  case col_le => omega
  case row_le => exact hRow
  all_goals assumption

/- The step to the next row -/
theorem next_row {row : Nat} (hValid : g.Valid)
    (hAt : At g slc row g.col2) (hFirst : slc.first = false)
    (hMore : row < g.row2) :
    (next slc).2 = true ∧ (next slc).1.first = false ∧ At g (next slc).1 (row + 1) g.col1 := by
  rcases hValid with ⟨-, hY, -, hH, -, hTh, -⟩
  rcases hAt with ⟨h₁, h₂, h₃, h₄, h₅, h₆, h₇, h₈, h₉, h₁₀, hInfo, hCol, hRow⟩
  have hStart : partStart g.y g.tileH (row + 1) = 0 :=
    partStart_later hY hTh (Nat.lt_succ_of_le hRow.1)
  have hLength : (if row + 1 < g.row2 then g.tileH
      else g.y + g.h - g.row2 * g.tileH) = partLength g.y g.h g.tileH (row + 1) := by
    split
    case isTrue hInner =>
      exact (partLength_inner hY hH hTh (Nat.lt_succ_of_le hRow.1) hInner).symm
    case isFalse hLast =>
      have hEq : row + 1 = g.row2 := by omega
      rw [hEq]
      refine (partLength_last hY hH hTh ?_).symm
      exact Nat.lt_of_le_of_lt hRow.1 hMore
  have hOut : slc.col2 < slc.info.col + 1 := by
    rw [hInfo, h₂]
    exact Nat.lt_succ_self g.col2
  have hIn : ¬ slc.row2 < slc.info.row + 1 := by
    rw [hInfo, h₄]
    exact Nat.not_lt_of_le hMore
  unfold next
  simp only [hFirst, Bool.false_eq_true, if_false]
  rw [if_pos hOut, if_neg hIn]
  refine ⟨rfl, rfl, ?_⟩
  constructor
  case info_eq =>
    simp only [hInfo, h₁, h₄, h₅, h₆, h₇, h₈, h₁₀,
      Region.infoAt, Region.part, hStart, hLength, isFull]
  case col_le => exact ⟨le_refl _, hCol.1⟩
  case row_le => omega
  all_goals assumption

/- Behind the last tile -/
theorem next_end (hAt : At g slc g.row2 g.col2)
    (hFirst : slc.first = false) : (next slc).2 = false := by
  have hOut : slc.col2 < slc.info.col + 1 := by
    rw [hAt.info_eq, hAt.col2_eq]
    exact Nat.lt_succ_self g.col2
  have hLast : slc.row2 < slc.info.row + 1 := by
    rw [hAt.info_eq, hAt.row2_eq]
    exact Nat.lt_succ_self g.row2
  unfold next
  simp only [hFirst, Bool.false_eq_true, if_false]
  rw [if_pos hOut, if_pos hLast]

/- What comes after one of the tiles -/
def Region.restInfos (g : Region) (row col : Nat) : List Info :=
  (List.range' (col + 1) (g.col2 - col)).map (g.infoAt row) ++
    (List.range' (row + 1) (g.row2 - row)).flatMap g.rowInfos

theorem restInfos_col {row col : Nat} (hMore : col < g.col2) :
    g.restInfos row col = g.infoAt row (col + 1) :: g.restInfos row (col + 1) := by
  unfold Region.restInfos
  rw [show g.col2 - col = g.col2 - (col + 1) + 1 by omega, List.range'_succ, map_cons, cons_append]

theorem rowInfos_eq (row : Nat) :
    g.rowInfos row = g.infoAt row g.col1 ::
      (List.range' (g.col1 + 1) (g.col2 - g.col1)).map (g.infoAt row) := by
  unfold Region.rowInfos
  rw [List.range'_succ, map_cons]

theorem restInfos_row {row : Nat} (hMore : row < g.row2) :
    g.restInfos row g.col2 = g.infoAt (row + 1) g.col1 :: g.restInfos (row + 1) g.col1 := by
  unfold Region.restInfos
  rw [Nat.sub_self, List.range'_zero, map_nil, nil_append,
    show g.row2 - row = g.row2 - (row + 1) + 1 by omega,
    List.range'_succ, flatMap_cons, rowInfos_eq, cons_append]

theorem restInfos_end : g.restInfos g.row2 g.col2 = [] := by
  unfold Region.restInfos
  rw [Nat.sub_self, Nat.sub_self]
  rfl

theorem infos_eq : g.infos = g.infoAt g.row1 g.col1 :: g.restInfos g.row1 g.col1 := by
  unfold Region.infos Region.restInfos
  rw [List.range'_succ, flatMap_cons, rowInfos_eq, cons_append]

/- A slicer that stands at a tile goes through all later ones. -/
theorem slices_rest (hValid : g.Valid) (fuel : Nat)
    (slc : Slicer) (row col : Nat) (hAt : At g slc row col) (hFirst : slc.first = false)
    (hFuel : (g.restInfos row col).length < fuel) :
    slices fuel slc = some (g.restInfos row col) := by
  induction fuel generalizing slc row col with
  | zero => exact absurd hFuel (Nat.not_lt_zero _)
  | succ fuel ih =>
    unfold slices
    by_cases hCol : col < g.col2
    · rcases next_col hValid hAt hFirst hCol with ⟨hMore, hNext, hAt'⟩
      rw [restInfos_col hCol] at hFuel ⊢
      have hRest := ih _ row (col + 1) hAt' hNext (Nat.lt_of_succ_lt_succ hFuel)
      simp only [hMore, if_true, hRest, hAt'.info_eq, map_some]
    · have hLast : col = g.col2 := by
        have := hAt.col_le
        omega
      subst hLast
      by_cases hRow : row < g.row2
      · rcases next_row hValid hAt hFirst hRow with ⟨hMore, hNext, hAt'⟩
        rw [restInfos_row hRow] at hFuel ⊢
        have hRest := ih _ (row + 1) g.col1 hAt' hNext (Nat.lt_of_succ_lt_succ hFuel)
        simp only [hMore, if_true, hRest, hAt'.info_eq, map_some]
      · have hEnd : row = g.row2 := by
          have := hAt.row_le
          omega
        subst hEnd
        simp only [next_end hAt hFirst, Bool.false_eq_true, if_false, restInfos_end]

/- The first call gives what the setup has prepared. -/
theorem next_first (hFirst : slc.first = true) :
    next slc = ({ slc with first := false }, true) := by
  unfold next
  rw [if_pos hFirst]

theorem slices_eq (hValid : g.Valid) (slc : Slicer) (fuel : Nat)
    (hFuel : g.infos.length < fuel) :
    slices fuel (setup slc g.x g.y g.w g.h g.tileW g.tileH) = some g.infos := by
  rcases setup_at slc hValid with ⟨hFirst, hAt⟩
  generalize setup slc g.x g.y g.w g.h g.tileW g.tileH = start at hFirst hAt ⊢
  rw [infos_eq] at hFuel ⊢
  cases fuel with
  | zero => exact absurd hFuel (Nat.not_lt_zero _)
  | succ fuel =>
    have hRest := slices_rest hValid fuel { start with first := false } g.row1 g.col1
      ⟨hAt.1, hAt.2, hAt.3, hAt.4, hAt.5, hAt.6, hAt.7, hAt.8,
        hAt.9, hAt.10, hAt.11, hAt.12, hAt.13⟩
      rfl (Nat.lt_of_succ_lt_succ hFuel)
    unfold slices
    rw [next_first hFirst]
    simp only [if_true]
    rw [hRest, hAt.info_eq, map_some]

end

---
-- Correctness
---

/- Where the rectangle of an info is in the plane -/
def Region.placed (g : Region) (info : Info) : Rectangle where
  x := info.col * g.tileW + info.rect.x
  y := info.row * g.tileH + info.rect.y
  w := info.rect.w
  h := info.rect.h

def Region.rect (g : Region) : Rectangle :=
  ⟨g.x, g.y, g.w, g.h⟩

/- The infos cut a region along its tiles, row by row. -/
structure IsGrid (g : Region) (infos : List Info) : Prop where
  covers : ⋃ info ∈ infos, (g.placed info).pixels =
    g.rect.pixels
  disjoint : infos.Pairwise fun a b =>
    Disjoint (g.placed a).pixels (g.placed b).pixels
  rowMajor : infos.Pairwise fun a b =>
    a.row < b.row ∨ a.row = b.row ∧ a.col < b.col
  inTile : ∀ info ∈ infos,
    (0 ≤ info.rect.x ∧ 0 < info.rect.w ∧
      info.rect.x + info.rect.w ≤ g.tileW) ∧
    (0 ≤ info.rect.y ∧ 0 < info.rect.h ∧
      info.rect.y + info.rect.h ≤ g.tileH)
  full_iff : ∀ info ∈ infos,
    info.full = true ↔ info.rect = ⟨0, 0, g.tileW, g.tileH⟩

section

variable {g : Region}

theorem mem_infos {info : Info} (hValid : g.Valid) :
    info ∈ g.infos ↔ ∃ row col,
      (g.row1 ≤ row ∧ row ≤ g.row2) ∧ (g.col1 ≤ col ∧ col ≤ g.col2) ∧ info = g.infoAt row col := by
  have hCol : g.col1 ≤ g.col2 := firstTile_le_lastTile hValid.w_pos hValid.tileW_pos
  have hRow : g.row1 ≤ g.row2 := firstTile_le_lastTile hValid.h_pos hValid.tileH_pos
  simp only [Region.infos, Region.rowInfos, mem_flatMap, List.mem_map, mem_range'_1]
  constructor
  · rintro ⟨row, hRows, col, hCols, rfl⟩
    exact ⟨row, col, by omega, by omega, rfl⟩
  · rintro ⟨row, col, hRows, hCols, rfl⟩
    exact ⟨row, by omega, col, by omega, rfl⟩

/- A pixel of the region is in the part of its own tile only. -/
theorem mem_placed_iff {row col : Nat} {p : Pixel} (hValid : g.Valid) :
    (g.row1 ≤ row ∧ row ≤ g.row2) ∧
        (g.col1 ≤ col ∧ col ≤ g.col2) ∧
        p ∈ (g.placed (g.infoAt row col)).pixels ↔
      p ∈ g.rect.pixels ∧ firstTile p.2 g.tileH = row ∧ firstTile p.1 g.tileW = col := by
  have hX := mem_part_iff (w := g.w) (k := col) (p := p.1) hValid.x_nonneg hValid.tileW_pos
  have hY := mem_part_iff (w := g.h) (k := row) (p := p.2) hValid.y_nonneg hValid.tileH_pos
  simp only [Rectangle.mem_pixels, Region.placed, Region.infoAt, Region.part, Region.rect]
  constructor
  · rintro ⟨⟨hRow1, hRow2⟩, ⟨hCol1, hCol2⟩, hLeft, hRight, hTop, hBottom⟩
    have hInX := hX.mp ⟨hCol1, hCol2, hLeft, hRight⟩
    have hInY := hY.mp ⟨hRow1, hRow2, hTop, hBottom⟩
    exact ⟨⟨hInX.1.1, hInX.1.2, hInY.1.1, hInY.1.2⟩, hInY.2, hInX.2⟩
  · rintro ⟨⟨hLeft, hRight, hTop, hBottom⟩, hRow, hCol⟩
    have hInX := hX.mpr ⟨⟨hLeft, hRight⟩, hCol⟩
    have hInY := hY.mpr ⟨⟨hTop, hBottom⟩, hRow⟩
    exact ⟨⟨hInY.1, hInY.2.1⟩, ⟨hInX.1, hInX.2.1⟩, hInX.2.2.1, hInX.2.2.2, hInY.2.2.1, hInY.2.2.2⟩

theorem infos_covers (hValid : g.Valid) :
    ⋃ info ∈ g.infos, (g.placed info).pixels = g.rect.pixels := by
  ext p
  simp only [Set.mem_iUnion]
  constructor
  · rintro ⟨info, hInfo, hPixel⟩
    rcases (mem_infos hValid).mp hInfo with ⟨row, col, hRow, hCol, rfl⟩
    exact ((mem_placed_iff hValid).mp ⟨hRow, hCol, hPixel⟩).1
  · intro hPixel
    rcases (mem_placed_iff hValid).mpr ⟨hPixel, rfl, rfl⟩ with ⟨hRow, hCol, hPlaced⟩
    exact ⟨_, (mem_infos hValid).mpr ⟨_, _, hRow, hCol, rfl⟩, hPlaced⟩

theorem infos_rowMajor (g : Region) :
    g.infos.Pairwise fun a b =>
      a.row < b.row ∨ a.row = b.row ∧ a.col < b.col := by
  unfold Region.infos
  rw [pairwise_flatMap]
  constructor
  · intro row hRow
    unfold Region.rowInfos
    rw [pairwise_map]
    refine List.Pairwise.imp ?_ pairwise_lt_range'
    exact fun hLt => Or.inr ⟨rfl, hLt⟩
  · refine List.Pairwise.imp ?_ pairwise_lt_range'
    intro row row' hLt a hA b hB
    unfold Region.rowInfos at hA hB
    rcases mem_map.mp hA with ⟨col, -, rfl⟩
    rcases mem_map.mp hB with ⟨col', -, rfl⟩
    exact Or.inl hLt

section

variable (hValid : g.Valid)

include hValid

/- Different tiles have different pixels. -/
theorem infos_disjoint :
    g.infos.Pairwise fun a b =>
      Disjoint (g.placed a).pixels (g.placed b).pixels := by
  refine List.Pairwise.imp_of_mem ?_ (infos_rowMajor g)
  intro a b hA hB hOrder
  rcases (mem_infos hValid).mp hA with ⟨row, col, hRow, hCol, rfl⟩
  rcases (mem_infos hValid).mp hB with ⟨row', col', hRow', hCol', rfl⟩
  rw [Set.disjoint_left]
  intro p hPixel hPixel'
  have hTile := (mem_placed_iff hValid).mp ⟨hRow, hCol, hPixel⟩
  have hTile' := (mem_placed_iff hValid).mp ⟨hRow', hCol', hPixel'⟩
  simp only [Region.infoAt] at hOrder
  omega

theorem infos_inTile (info : Info)
    (hInfo : info ∈ g.infos) :
    (0 ≤ info.rect.x ∧ 0 < info.rect.w ∧
      info.rect.x + info.rect.w ≤ g.tileW) ∧
    (0 ≤ info.rect.y ∧ 0 < info.rect.h ∧ info.rect.y + info.rect.h ≤ g.tileH) := by
  rcases (mem_infos hValid).mp hInfo with ⟨row, col, hRow, hCol, rfl⟩
  exact ⟨part_bounds hValid.x_nonneg hValid.w_pos hValid.tileW_pos
      hCol.1 hCol.2, part_bounds hValid.y_nonneg hValid.h_pos hValid.tileH_pos hRow.1 hRow.2⟩

/- A part as long as its tile starts where the tile does. -/
theorem infos_full_iff (info : Info)
    (hInfo : info ∈ g.infos) : info.full = true ↔ info.rect = ⟨0, 0, g.tileW, g.tileH⟩ := by
  have hTile := infos_inTile hValid info hInfo
  rcases (mem_infos hValid).mp hInfo with ⟨row, col, hRow, hCol, rfl⟩
  simp only [Region.infoAt, decide_eq_true_eq] at hTile ⊢
  rw [Rectangle.mk.injEq]
  omega

theorem infos_isGrid : IsGrid g g.infos where
  covers := infos_covers hValid
  disjoint := infos_disjoint hValid
  rowMajor := infos_rowMajor g
  inTile := infos_inTile hValid
  full_iff := infos_full_iff hValid

end

end

/-
  The slicer ends, and has then cut the region along the tiles.
-/
theorem slices_correct (slc : Slicer) (g : Region) (hValid : g.Valid) :
    ∃ infos, (∀ fuel, infos.length < fuel →
      slices fuel (setup slc g.x g.y g.w g.h g.tileW g.tileH) =
            some infos) ∧
        IsGrid g infos :=
  ⟨g.infos, slices_eq hValid slc, infos_isGrid hValid⟩

theorem slices_correct_sample :
    let slc : Slicer := ⟨0, 0, 0, 0, 0, 0, 0, 0, 0, 0, 0, 0,
      ⟨0, 0, ⟨0, 0, 0, 0⟩, false⟩, false⟩
    ∃ infos,
      (∀ fuel, infos.length < fuel →
        slices fuel (setup slc 3 1 6 2 4 4) = some infos) ∧
        IsGrid ⟨3, 1, 6, 2, 4, 4⟩ infos := by
  refine slices_correct _ ⟨3, 1, 6, 2, 4, 4⟩ ?_
  constructor <;> decide

end Efl.Eina.TileGrid
