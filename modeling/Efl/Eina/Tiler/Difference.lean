import Efl.Eina.Tiler.Geometry

/-
  `rect_list_del_split_strict` is set difference, unless
  two rectangles are further apart than an `int` can say.

  Main declarations:
    * `Tiler.Near`
    * `Tiler.IsDifference`
    * `Tiler.delSplitStrictLoop_spec`
    * `Tiler.delSplitStrict_correct`
-/

---
-- Intersections
---

namespace Efl.Eina.Tiler

open CInt

/- The differences that `_calc_intra_rect_area` takes are `int`. -/
structure Near (a b : Rect) : Prop where
  width_ge : -2147483648 ≤
    min a.right b.right - max a.left b.left
  height_ge : -2147483648 ≤
    min a.bottom b.bottom - max a.top b.top

instance (a b : Rect) : Decidable (Near a b) :=
  decidable_of_iff
    (-2147483648 ≤ min a.right b.right - max a.left b.left ∧
      -2147483648 ≤ min a.bottom b.bottom - max a.top b.top)
    ⟨fun h => ⟨h.1, h.2⟩, fun h => ⟨h.1, h.2⟩⟩

section

variable {a b : Rect} (hA : Solid a) (hB : Solid b)

include hA hB

theorem calcIntraRectArea_eq (hNear : Near a b) :
    calcIntraRectArea a b =
      (min a.right b.right - max a.left b.left, min a.bottom b.bottom - max a.top b.top) := by
  rcases hA with ⟨a₁, a₂, a₃, a₄, a₅, a₆, a₇, a₈, a₉, a₁₀, -⟩
  rcases hB with ⟨b₁, b₂, b₃, b₄, b₅, b₆, b₇, b₈, b₉, b₁₀, -⟩
  rcases hNear with ⟨hWidth, hHeight⟩
  have hMaxLeft : (if a.left < b.left then b.left else a.left) = max a.left b.left := by
    omega
  have hMinRight : (if a.right < b.right then a.right else b.right) = min a.right b.right := by
    omega
  have hMaxTop : (if a.top < b.top then b.top else a.top) = max a.top b.top := by
    omega
  have hMinBottom :
      (if a.bottom < b.bottom then a.bottom else b.bottom) = min a.bottom b.bottom := by
    omega
  unfold intMax at a₉ a₁₀
  unfold calcIntraRectArea
  rw [hMaxLeft, hMinRight, hMaxTop, hMinBottom]
  dsimp only
  congr 1
  · apply wrap_of_inRange
    unfold CInt.InRange
    omega
  · apply wrap_of_inRange
    unfold CInt.InRange
    omega

/- The test for "no intersection" -/
theorem calcIntraRectArea_meets (hNear : Near a b) :
    (calcIntraRectArea a b).1 ≤ 0 ∨
        (calcIntraRectArea a b).2 ≤ 0 ↔
      ¬ Meets a b := by
  rw [calcIntraRectArea_eq hA hB hNear]
  have hA₁ := hA.left_lt
  have hA₂ := hA.top_lt
  have hB₁ := hB.left_lt
  have hB₂ := hB.top_lt
  dsimp only
  constructor
  · rintro hNot ⟨h₁, h₂, h₃, h₄⟩
    omega
  · intro hNot
    by_contra hBoth
    exact hNot ⟨by omega, by omega, by omega, by omega⟩

/- The test for "`b` is contained in `a`" -/
theorem calcIntraRectArea_within (hNear : Near a b) :
    (calcIntraRectArea a b).1 = b.width ∧
        (calcIntraRectArea a b).2 = b.height ↔
      ∀ p, b.Covers p → a.Covers p := by
  rw [calcIntraRectArea_eq hA hB hNear]
  have hB₁ := hB.left_lt
  have hB₂ := hB.top_lt
  have hWidth := hB.width_eq
  have hHeight := hB.height_eq
  dsimp only
  constructor
  · rintro ⟨hX, hY⟩ p hIn
    unfold Rect.Covers at hIn ⊢
    omega
  · intro hWithin
    have hFirst := hWithin (b.left, b.top) (by
      unfold Rect.Covers
      dsimp only
      omega)
    have hLast := hWithin (b.right - 1, b.bottom - 1) (by
      unfold Rect.Covers
      dsimp only
      omega)
    unfold Rect.Covers at hFirst hLast
    dsimp only at hFirst hLast
    omega

end

---
-- The Difference
---

open List

/-
  The cells of a list without those of a rectangle, as solid
  rectangles, which are disjoint if they were.
-/
structure IsDifference (rects : List Rect) (delR : Rect) (result : List Rect) : Prop where
  covers : ∀ p, Covered result p ↔
    Covered rects p ∧ ¬ delR.Covers p
  solid : ∀ r ∈ result, Solid r
  apart : rects.Pairwise Apart → result.Pairwise Apart

section

variable {delR current : Rect} {rects kept modified : List Rect}

theorem IsDifference.nil (delR : Rect) : IsDifference [] delR [] where
  covers p := by simp
  solid := by simp
  apart := id

/- One more rectangle, and what stays of it -/
theorem IsDifference.cons (current : Rect) (pieces : List Rect)
    (hRest : IsDifference rects delR (kept ++ modified)) (hCovers : ∀ p,
    Covered pieces p ↔ current.Covers p ∧ ¬ delR.Covers p)
    (hSolid : ∀ r ∈ pieces, Solid r) (hApart : pieces.Pairwise Apart) :
    IsDifference (current :: rects) delR (pieces ++ (kept ++ modified)) where
  covers p := by
    rw [covered_append, covered_cons, hCovers, hRest.covers]
    tauto
  solid r hMem := by
    rcases mem_append.mp hMem with hMem | hMem
    · exact hSolid r hMem
    · exact hRest.solid r hMem
  apart hPairwise := by
    rw [pairwise_cons] at hPairwise
    rcases hPairwise with ⟨hCurrent, hRects⟩
    refine pairwise_append_apart hApart (hRest.apart hRects) ?_
    intro p hPiece hOther
    rcases ((hRest.covers p).mp hOther).1 with ⟨r, hMem, hIn⟩
    exact hCurrent r hMem p ((hCovers p).mp hPiece).1 hIn

/- The order of the rectangles does not matter. -/
theorem IsDifference.perm {result result' : List Rect} (hDiff : IsDifference rects delR result)
    (hPerm : result.Perm result') : IsDifference rects delR result' where
  covers p := by
    rw [← hDiff.covers]
    unfold Covered
    simp only [hPerm.mem_iff]
  solid r hMem := hDiff.solid r (hPerm.mem_iff.mpr hMem)
  apart hPairwise := (hPerm.pairwise_iff Apart.symm).mp (hDiff.apart hPairwise)

/-
  The rectangles that stay and the pieces of those that are
  cut, after the loop
-/
theorem delSplitStrictLoop_spec (hDel : Solid delR)
    (hRects : ∀ r ∈ rects, Solid r) (hNear : ∀ r ∈ rects, Near delR r) :
    IsDifference rects delR ((delSplitStrictLoop delR rects).1 ++
      (delSplitStrictLoop delR rects).2) := by
  induction rects with
  | nil => exact IsDifference.nil delR
  | cons current rects ih =>
    rw [forall_mem_cons] at hRects hNear
    rcases hRects with ⟨hCurrent, hRects⟩
    rcases hNear with ⟨hNear, hNears⟩
    have hRest := ih hRects hNears
    have hMeet := calcIntraRectArea_meets hDel hCurrent hNear
    unfold delSplitStrictLoop
    dsimp only
    split
    case isTrue hNone =>
      -- Nothing of the current one is deleted.
      have hNot := hMeet.mp hNone
      rw [← apart_iff hDel hCurrent] at hNot
      have hCons := hRest.cons current [current] (fun p => by
          rw [covered_cons, or_iff_left (covered_nil p)]
          exact ⟨fun h => ⟨h, hNot.symm p h⟩, And.left⟩)
        (by simpa using hCurrent) (pairwise_singleton _ _)
      exact hCons
    case isFalse hSome =>
      have hMeets : Meets delR current := by
        by_contra hNot
        exact hSome (hMeet.mpr hNot)
      split
      case isTrue hIn =>
        -- All of it is.
        have hWithin := (calcIntraRectArea_within hDel hCurrent hNear).mp hIn
        have hCons := hRest.cons current [] (fun p => by
            rw [iff_false_left (covered_nil p)]
            exact fun h => h.2 (hWithin p h.1)) (by simp) List.Pairwise.nil
        exact hCons
      case isFalse =>
        have hCons := hRest.cons current (surround delR current) (covered_surround hMeets)
          (surround_solid hDel hCurrent hMeets) (surround_apart hDel)
        rw [splitStrict_eq hDel hCurrent hMeets]
        dsimp only
        refine hCons.perm ?_
        rw [← append_assoc, ← append_assoc]
        exact List.perm_append_comm.append_right _

end

/-
  Deleting is set difference for rectangles that are not
  further apart than the largest `int`.
-/
theorem delSplitStrict_correct (rects : List Rect) (delR : Rect)
    (hRects : ∀ r ∈ rects, Solid r) (hDel : Solid delR)
    (hNear : ∀ r ∈ rects, Near delR r) :
    IsDifference rects delR (delSplitStrict rects delR) :=
  delSplitStrictLoop_spec hDel hRects hNear

theorem delSplitStrict_correct_sample :
    IsDifference [rectInit 0 0 8 8, rectInit 6 6 4 4] (rectInit 2 2 5 5)
      (delSplitStrict [rectInit 0 0 8 8,
      rectInit 6 6 4 4] (rectInit 2 2 5 5)) := by
  refine delSplitStrict_correct _ _ ?_ ?_ ?_ <;> decide

/-
  Rectangles at both ends of the `int` range: the one that is
  kept apart is cut into a piece that ends before it begins.
-/
theorem delSplitStrict_far :
    Solid (rectInit 2147483646 0 1 1) ∧
      Solid (rectInit (-2147483648) 0 1 2) ∧
      ¬ IsDifference [rectInit 2147483646 0 1 1]
        (rectInit (-2147483648) 0 1 2)
        (delSplitStrict [rectInit 2147483646 0 1 1]
          (rectInit (-2147483648) 0 1 2)) := by
  refine ⟨by decide, by decide, ?_⟩
  intro hDiff
  have hMem : rectInit 2147483646 0 2 1 ∈ delSplitStrict
      [rectInit 2147483646 0 1 1] (rectInit (-2147483648) 0 1 2) := by
    decide
  have hSolid := (hDiff.solid _ hMem).left_lt
  revert hSolid
  decide

end Efl.Eina.Tiler
