import Mathlib.Order.CompletePartialOrder
import Mathlib.Data.Set.Basic
import Efl.Lib.CInt

/-
  `Eina_Rectangle` and the set of pixels it stands for.

  Main declarations:
    * `Rectangle.pixels`
    * `Rectangle.intersection`
    * `Rectangle.intersection_true`
    * `Rectangle.intersection_false`
-/

---
-- Rectangles
---

namespace Efl.Eina

open CInt

structure Rectangle where
  x : Int
  y : Int
  w : Int
  h : Int
  deriving DecidableEq, Repr

abbrev Pixel :=
  Int × Int

namespace Rectangle

/- The pixels of a rectangle. -/
def pixels (r : Rectangle) : Set Pixel :=
  { p | r.x ≤ p.1 ∧ p.1 < r.x + r.w ∧
    r.y ≤ p.2 ∧ p.2 < r.y + r.h }

@[simp] theorem mem_pixels {r : Rectangle} {p : Pixel} :
    p ∈ r.pixels ↔
      r.x ≤ p.1 ∧ p.1 < r.x + r.w ∧ r.y ≤ p.2 ∧ p.2 < r.y + r.h := Iff.rfl

/- All fields are `int` values. -/
def InRange (r : Rectangle) : Prop :=
  CInt.InRange r.x ∧ CInt.InRange r.y ∧
    CInt.InRange r.w ∧ CInt.InRange r.h

instance (r : Rectangle) : Decidable r.InRange :=
  inferInstanceAs (Decidable (_ ∧ _))

/- `eina_rectangle_is_valid` -/
def isValid (r : Rectangle) : Bool :=
  decide (0 < r.w) && decide (0 < r.h)

/- `eina_spans_intersect` -/
def spansIntersect (c₁ l₁ c₂ l₂ : Int) : Bool :=
  !(decide (wrap (c₂ + l₂) ≤ c₁) ||
    decide (c₂ ≥ wrap (c₁ + l₁)))

/- `eina_rectangles_intersect` -/
def rectanglesIntersect (r₁ r₂ : Rectangle) : Bool :=
  spansIntersect r₁.x r₁.w r₂.x r₂.w &&
    spansIntersect r₁.y r₁.h r₂.y r₂.h

/-
  One axis of an intersection: clip a span at both ends of
  another one.
-/
def clipSpan (c₁ l₁ c₂ l₂ : Int) : Int × Int :=
  let (c, l) :=
    if c₁ < c₂ then
      let l := wrap (l₁ + wrap (c₁ - c₂))
      (c₂, if l < 0 then 0 else l)
    else
      (c₁, l₁)
  if wrap (c + l) > wrap (c₂ + l₂) then
    (c, wrap (wrap (c₂ + l₂) - c))
  else
    (c, l)

/-
  `eina_rectangle_intersection`: the new value of `dst`, and
  what the call returns.
-/
def intersection (dst src : Rectangle) : Rectangle × Bool :=
  if dst.isValid && src.isValid &&
      rectanglesIntersect dst src then
    let (x, w) := clipSpan dst.x dst.w src.x src.w
    let (y, h) := clipSpan dst.y dst.h src.y src.h
    (⟨x, y, w, h⟩, !(decide (w = 0) || decide (h = 0)))
  else
    (dst, false)

---
-- Intersections with an Area
---

/- The area of a canvas of `w` times `h` pixels. -/
structure IsArea (a : Rectangle) : Prop where
  x_eq : a.x = 0
  y_eq : a.y = 0
  w_pos : 0 < a.w
  h_pos : 0 < a.h
  w_le : a.w ≤ intMax
  h_le : a.h ≤ intMax

/- The rectangle is valid and lies in an area. -/
structure Inside (r a : Rectangle) : Prop where
  x_nonneg : 0 ≤ r.x
  y_nonneg : 0 ≤ r.y
  w_pos : 0 < r.w
  h_pos : 0 < r.h
  right_le : r.x + r.w ≤ a.w
  bottom_le : r.y + r.h ≤ a.h

/- A span that ends in range meets the span of an area. -/
theorem spansIntersect_iff {c l n : Int} (hStart : CInt.InRange c)
    (hLength : 0 < l) (hEnd : c + l ≤ intMax) (hSpan : 0 < n)
    (hRange : n ≤ intMax) : spansIntersect c l 0 n = true ↔ c < n ∧ 0 < c + l := by
  unfold intMax at hEnd hRange
  unfold CInt.InRange at hStart
  have hWrap : wrap (c + l) = c + l := by
    apply wrap_of_inRange
    unfold CInt.InRange
    omega
  have hWrap' : wrap (0 + n) = n := by
    rw [Int.zero_add]
    apply wrap_of_inRange
    unfold CInt.InRange
    omega
  unfold spansIntersect
  rw [hWrap, hWrap']
  simp

/- A span that ends out of range does not. -/
theorem spansIntersect_of_overflow {c l n : Int}
    (hStart : CInt.InRange c) (hLength : CInt.InRange l)
    (hEnd : intMax < c + l) : spansIntersect c l 0 n = false := by
  unfold intMax at hEnd
  unfold CInt.InRange at hStart hLength
  have hWrap : wrap (c + l) ≤ 0 := by
    unfold wrap
    omega
  unfold spansIntersect
  simp
  omega

/- The common part of two spans that meet. -/
theorem clipSpan_eq {c l n : Int} (hStart : CInt.InRange c)
    (hEnd : c + l ≤ intMax) (hRange : n ≤ intMax)
    (hMeet : c < n ∧ 0 < c + l) : clipSpan c l 0 n = (max c 0, min (c + l) n - max c 0) := by
  unfold intMax at hEnd hRange
  unfold CInt.InRange at hStart
  have hLow : wrap (l + wrap (c - 0)) = l + c := by
    rw [wrap_of_inRange (x := c - 0) (by unfold CInt.InRange; omega)]
    rw [wrap_of_inRange (by unfold CInt.InRange; omega)]
    omega
  have hHigh : wrap (0 + n) = n := by
    rw [Int.zero_add]
    apply wrap_of_inRange
    unfold CInt.InRange
    omega
  unfold clipSpan
  rw [hLow, hHigh]
  by_cases hNeg : c < 0
  · have hSum : wrap (0 + (l + c)) = l + c := by
      rw [Int.zero_add]
      apply wrap_of_inRange
      unfold CInt.InRange
      omega
    have hRest : wrap (n - 0) = n := by
      rw [Int.sub_zero]
      apply wrap_of_inRange
      unfold CInt.InRange
      omega
    simp only [if_pos hNeg, if_neg (show ¬ l + c < 0 by omega), hSum, hRest]
    split
    · rw [Prod.mk.injEq]
      omega
    · rw [Prod.mk.injEq]
      omega
  · have hSum : wrap (c + l) = c + l := by
      apply wrap_of_inRange
      unfold CInt.InRange
      omega
    have hRest : wrap (n - c) = n - c := by
      apply wrap_of_inRange
      unfold CInt.InRange
      omega
    simp only [if_neg hNeg, hSum, hRest]
    split
    · rw [Prod.mk.injEq]
      omega
    · rw [Prod.mk.injEq]
      omega

/- A successful intersection is the common part. -/
theorem intersection_true {r r' a : Rectangle} (hArea : a.IsArea)
    (hRange : r.InRange) (hCall : intersection r a = (r', true)) :
    r'.Inside a ∧ r'.pixels = r.pixels ∩ a.pixels ∧ r'.x = max r.x 0 ∧ r'.y = max r.y 0 := by
  rcases hArea with ⟨hX, hY, hW, hH, hWLe, hHLe⟩
  rcases hRange with ⟨hx, hy, hw, hh⟩
  unfold intersection at hCall
  split at hCall
  · rename_i hMeet
    simp only [Bool.and_eq_true, rectanglesIntersect, isValid, decide_eq_true_eq, hX, hY] at hMeet
    rcases hMeet with ⟨⟨hValid, -⟩, hMeetX, hMeetY⟩
    have hEndX : r.x + r.w ≤ intMax := by
      by_contra hOver
      rw [spansIntersect_of_overflow hx hw (by omega)] at hMeetX
      simp at hMeetX
    have hEndY : r.y + r.h ≤ intMax := by
      by_contra hOver
      rw [spansIntersect_of_overflow hy hh (by omega)] at hMeetY
      simp at hMeetY
    rw [spansIntersect_iff hx hValid.1 hEndX hW hWLe] at hMeetX
    rw [spansIntersect_iff hy hValid.2 hEndY hH hHLe] at hMeetY
    rw [hX, hY, clipSpan_eq hx hEndX hWLe hMeetX, clipSpan_eq hy hEndY hHLe hMeetY] at hCall
    simp only [Prod.mk.injEq] at hCall
    rcases hCall with ⟨rfl, -⟩
    refine ⟨⟨?_, ?_, ?_, ?_, ?_, ?_⟩, ?_, rfl, rfl⟩
    case refine_7 =>
      ext p
      simp only [mem_pixels, Set.mem_inter_iff, hX, hY]
      omega
    all_goals
      dsimp only
      omega
  · simp at hCall

/- A failed one means that there is no common pixel. -/
theorem intersection_false {r r' a : Rectangle} (hArea : a.IsArea) (hRange : r.InRange)
    (hEndX : r.x + r.w ≤ intMax) (hEndY : r.y + r.h ≤ intMax)
    (hCall : intersection r a = (r', false)) : r.pixels ∩ a.pixels = ∅ := by
  rcases hArea with ⟨hX, hY, hW, hH, hWLe, hHLe⟩
  rcases hRange with ⟨hx, hy, hw, hh⟩
  rw [Set.eq_empty_iff_forall_notMem]
  intro p hp
  simp only [Set.mem_inter_iff, mem_pixels, hX, hY] at hp
  have hMeetX := (spansIntersect_iff hx (show 0 < r.w by omega) hEndX hW hWLe).mpr (by omega)
  have hMeetY := (spansIntersect_iff hy (show 0 < r.h by omega) hEndY hH hHLe).mpr (by omega)
  unfold intersection at hCall
  rw [if_pos] at hCall
  · rw [hX, hY, clipSpan_eq hx hEndX hWLe (by omega), clipSpan_eq hy hEndY hHLe (by omega)] at hCall
    simp only [Prod.mk.injEq, Bool.not_eq_false', Bool.or_eq_true, decide_eq_true_eq] at hCall
    omega
  · simp only [Bool.and_eq_true, rectanglesIntersect, isValid, decide_eq_true_eq, hX, hY]
    exact ⟨⟨by omega, by omega⟩, hMeetX, hMeetY⟩

end Rectangle

end Efl.Eina
