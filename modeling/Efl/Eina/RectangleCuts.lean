import Efl.Eina.Rectangle
import Mathlib.Data.Set.Lattice

/-
  The cuts of an `Eina_Rectangle`, and the difference of two.

  A cut that fails leaves what it was to fill in unchanged.

  Main declarations:
    * `Rectangle.xCut`, `Rectangle.heightCut`
    * `Rectangle.subtract`
    * `Rectangle.intersection_eq`
    * `Rectangle.subtract_iff`
-/

---
-- Cuts
---

namespace Efl.Eina

open CInt

namespace Rectangle

/- `EINA_RECTANGLE_INIT` -/
def init : Rectangle :=
  ⟨0, 0, 0, 0⟩

/- `eina_rectangle_max_x` -/
def maxX (thiz : Rectangle) : Int :=
  wrap (thiz.x + thiz.w)

/- `eina_rectangle_max_y` -/
def maxY (thiz : Rectangle) : Int :=
  wrap (thiz.y + thiz.h)

/- `eina_rectangle_x_cut`: the slice, and what is left over. -/
def xCut (thiz : Rectangle) (amount : Int) : Option (Rectangle × Rectangle) :=
  if amount > thiz.w then
    none
  else
    some
      (⟨thiz.x, thiz.y, amount, thiz.h⟩,
        ⟨wrap (thiz.x + amount), thiz.y, wrap (thiz.w - amount),
          thiz.h⟩)

/- `eina_rectangle_y_cut` -/
def yCut (thiz : Rectangle) (amount : Int) : Option (Rectangle × Rectangle) :=
  if amount > thiz.h then
    none
  else
    some
      (⟨thiz.x, thiz.y, thiz.w, amount⟩,
        ⟨thiz.x, wrap (thiz.y + amount), thiz.w,
          wrap (thiz.h - amount)⟩)

/- `eina_rectangle_width_cut` -/
def widthCut (thiz : Rectangle) (amount : Int) : Option (Rectangle × Rectangle) :=
  if wrap (thiz.w - amount) < 0 then
    none
  else
    some
      (⟨wrap (thiz.x + wrap (thiz.w - amount)), thiz.y, amount,
          thiz.h⟩,
        ⟨thiz.x, thiz.y, wrap (thiz.w - amount), thiz.h⟩)

/- `eina_rectangle_height_cut` -/
def heightCut (thiz : Rectangle) (amount : Int) : Option (Rectangle × Rectangle) :=
  if wrap (thiz.h - amount) < 0 then
    none
  else
    some
      (⟨thiz.x, wrap (thiz.y + wrap (thiz.h - amount)), thiz.w,
          amount⟩,
        ⟨thiz.x, thiz.y, thiz.w, wrap (thiz.h - amount)⟩)

/- What a cut fills in, or what was there. -/
def filled (cut : Option (Rectangle × Rectangle))
    (leftover out : Rectangle) : Rectangle × Rectangle :=
  cut.getD (leftover, out)

/- "cut in height" -/
def subtractHeight (thiz inter : Rectangle) : Rectangle × Rectangle :=
  let cut := wrap (thiz.h - wrap (inter.y - thiz.y))
  let cut := if cut > thiz.h then thiz.h else cut
  filled (heightCut thiz cut) init init

/- "cut in y": the new leftover, and `out[1]` -/
def subtractY (leftover inter : Rectangle) : Rectangle × Rectangle :=
  let (tmp, meets) := intersection leftover inter
  if meets then
    let cut :=
      wrap (leftover.h - wrap (maxY leftover - maxY tmp))
    let cut := if cut > leftover.h then leftover.h else cut
    filled (yCut leftover cut) leftover init
  else
    (leftover, init)

/- "cut in width": the new leftover, and `out[2]` -/
def subtractWidth (leftover inter : Rectangle) : Rectangle × Rectangle :=
  let (tmp, meets) := intersection leftover inter
  if meets then
    let cut := wrap (leftover.w - wrap (tmp.x - leftover.x))
    let cut := if cut > leftover.w then leftover.w else cut
    filled (widthCut leftover cut) leftover init
  else
    (leftover, init)

/- "cut in x": the new leftover, and `out[3]` -/
def subtractX (leftover inter : Rectangle) : Rectangle × Rectangle :=
  let (tmp, meets) := intersection leftover inter
  if meets then
    let cut :=
      wrap (leftover.w - wrap (maxX leftover - maxX tmp))
    let cut := if cut > leftover.w then leftover.w else cut
    filled (xCut leftover cut) leftover init
  else
    (leftover, init)

/-
  `eina_rectangle_subtract`: the four rectangles of `out` after
  the call, and what it returns.
-/
def subtract (thiz other : Rectangle) (out : List Rectangle) : List Rectangle × Bool :=
  if thiz.isValid then
    let (inter, meets) := intersection thiz other
    if !meets then
      ([thiz, init, init, init], true)
    else
      let (leftover, out₀) := subtractHeight thiz inter
      let (leftover, out₁) := subtractY leftover inter
      let (leftover, out₂) := subtractWidth leftover inter
      let (_, out₃) := subtractX leftover inter
      ([out₀, out₁, out₂, out₃], true)
  else
    (out, false)

---
-- Intersections
---

/- Both ends of the rectangle are `int` values. -/
def EndsFit (r : Rectangle) : Prop :=
  r.x + r.w ≤ intMax ∧ r.y + r.h ≤ intMax

instance (r : Rectangle) : Decidable r.EndsFit :=
  inferInstanceAs (Decidable (_ ∧ _))

/- Only the last sum has to be in range. -/
theorem wrap_add_wrap (a b : Int) : wrap (a + wrap b) = wrap (a + b) := by
  unfold wrap
  omega

theorem wrap_end {c l : Int} (hStart : CInt.InRange c)
    (hLength : 0 ≤ l) (hEnd : c + l ≤ intMax) : wrap (c + l) = c + l := by
  unfold intMax at hEnd
  unfold CInt.InRange at hStart
  apply wrap_of_inRange
  unfold CInt.InRange
  omega

/- Two spans that both end in range -/
theorem spansMeet_iff {c₁ l₁ c₂ l₂ : Int} (hStart₁ : CInt.InRange c₁)
    (hStart₂ : CInt.InRange c₂) (hLength₁ : 0 ≤ l₁) (hLength₂ : 0 ≤ l₂)
    (hEnd₁ : c₁ + l₁ ≤ intMax) (hEnd₂ : c₂ + l₂ ≤ intMax) :
    spansIntersect c₁ l₁ c₂ l₂ = true ↔ c₁ < c₂ + l₂ ∧ c₂ < c₁ + l₁ := by
  unfold spansIntersect
  rw [wrap_end hStart₁ hLength₁ hEnd₁, wrap_end hStart₂ hLength₂ hEnd₂]
  simp

/- A span that ends out of range meets nothing. -/
theorem spansIntersect_beyond {c₁ l₁ c₂ l₂ : Int}
    (hStart₁ : CInt.InRange c₁) (hStart₂ : CInt.InRange c₂)
    (hLength₁ : CInt.InRange l₁) (hLength₂ : CInt.InRange l₂) (hPos₁ : 0 < l₁) (hPos₂ : 0 < l₂)
    (hBeyond : intMax < c₁ + l₁ ∨ intMax < c₂ + l₂) : spansIntersect c₁ l₁ c₂ l₂ = false := by
  unfold intMax at hBeyond
  unfold CInt.InRange at hStart₁ hStart₂ hLength₁ hLength₂
  have hEnds : wrap (c₂ + l₂) ≤ c₁ ∨ wrap (c₁ + l₁) ≤ c₂ := by
    unfold wrap
    omega
  unfold spansIntersect
  simp only [Bool.not_eq_false', Bool.or_eq_true, decide_eq_true_eq]
  omega

theorem clipSpan_meet {c₁ l₁ c₂ l₂ : Int} (hStart₁ : CInt.InRange c₁)
    (hLength₁ : 0 < l₁) (hLength₂ : 0 < l₂) (hEnd₁ : c₁ + l₁ ≤ intMax)
    (hEnd₂ : c₂ + l₂ ≤ intMax) (hRange₁ : CInt.InRange l₁)
    (hRange₂ : CInt.InRange l₂) (hMeet : c₁ < c₂ + l₂ ∧ c₂ < c₁ + l₁) :
    clipSpan c₁ l₁ c₂ l₂ = (max c₁ c₂, min (c₁ + l₁) (c₂ + l₂) - max c₁ c₂) := by
  unfold intMax at hEnd₁ hEnd₂
  unfold CInt.InRange at hStart₁ hRange₁ hRange₂
  have hEnd : wrap (c₂ + l₂) = c₂ + l₂ := by
    unfold wrap
    omega
  unfold clipSpan
  rw [hEnd]
  by_cases hLt : c₁ < c₂
  · have hLeft : wrap (l₁ + wrap (c₁ - c₂)) = l₁ + c₁ - c₂ := by
      rw [wrap_add_wrap]
      unfold wrap
      omega
    have hSum : wrap (c₂ + (l₁ + c₁ - c₂)) = l₁ + c₁ := by
      unfold wrap
      omega
    have hRest : wrap (c₂ + l₂ - c₂) = l₂ := by
      unfold wrap
      omega
    simp only [if_pos hLt, hLeft, if_neg (show ¬ l₁ + c₁ - c₂ < 0 by omega), hSum, hRest]
    split
    · rw [Prod.mk.injEq]
      omega
    · rw [Prod.mk.injEq]
      omega
  · simp only [if_neg hLt, wrap_end hStart₁ (le_of_lt hLength₁) hEnd₁]
    have hRest : c₁ + l₁ > c₂ + l₂ → wrap (c₂ + l₂ - c₁) = c₂ + l₂ - c₁ := by
      intro _
      unfold wrap
      omega
    split
    case isTrue hGt =>
      rw [hRest hGt, Prod.mk.injEq]
      omega
    case isFalse =>
      rw [Prod.mk.injEq]
      omega

/- The rectangles have a pixel in common. -/
def Meets (r s : Rectangle) : Prop :=
  (r.x < s.x + s.w ∧ s.x < r.x + r.w) ∧
    (r.y < s.y + s.h ∧ s.y < r.y + r.h)

/- The common part of two rectangles -/
def meet (r s : Rectangle) : Rectangle :=
  ⟨max r.x s.x, max r.y s.y,
    min (r.x + r.w) (s.x + s.w) - max r.x s.x,
    min (r.y + r.h) (s.y + s.h) - max r.y s.y⟩

theorem isValid_iff (r : Rectangle) : r.isValid = true ↔ 0 < r.w ∧ 0 < r.h := by
  unfold isValid
  rw [Bool.and_eq_true, decide_eq_true_iff, decide_eq_true_iff]

theorem rectanglesIntersect_iff {r s : Rectangle} (hR : r.InRange)
    (hS : s.InRange) (hValidR : 0 < r.w ∧ 0 < r.h)
    (hValidS : 0 < s.w ∧ 0 < s.h) :
    rectanglesIntersect r s = true ↔ r.EndsFit ∧ s.EndsFit ∧ r.Meets s := by
  rcases hR with ⟨hRx, hRy, hRw, hRh⟩
  rcases hS with ⟨hSx, hSy, hSw, hSh⟩
  unfold rectanglesIntersect
  rw [Bool.and_eq_true]
  by_cases hFit : r.EndsFit ∧ s.EndsFit
  · rcases hFit with ⟨hFitR, hFitS⟩
    rw [spansMeet_iff hRx hSx (le_of_lt hValidR.1)
        (le_of_lt hValidS.1) hFitR.1 hFitS.1, spansMeet_iff hRy hSy
        (le_of_lt hValidR.2) (le_of_lt hValidS.2) hFitR.2 hFitS.2]
    exact ⟨fun hMeets => ⟨hFitR, hFitS, hMeets⟩, fun hAll => hAll.2.2⟩
  · constructor
    · rintro ⟨hX, hY⟩
      exfalso
      by_cases hFitX : r.x + r.w ≤ intMax ∧ s.x + s.w ≤ intMax
      · rw [spansIntersect_beyond hRy hSy hRh hSh hValidR.2
          hValidS.2 (by unfold EndsFit at hFit; omega)] at hY
        exact Bool.false_ne_true hY
      · rw [spansIntersect_beyond hRx hSx hRw hSw hValidR.1 hValidS.1 (by omega)] at hX
        exact Bool.false_ne_true hX
    · rintro ⟨hFitR, hFitS, -⟩
      exact absurd ⟨hFitR, hFitS⟩ hFit

/- A call that is successful, and what it leaves -/
theorem intersection_eq {r s : Rectangle} (hR : r.InRange) (hS : s.InRange)
    (hValidR : 0 < r.w ∧ 0 < r.h) (hValidS : 0 < s.w ∧ 0 < s.h)
    (hFitR : r.EndsFit) (hFitS : s.EndsFit) (hMeets : r.Meets s) :
    intersection r s = (r.meet s, true) := by
  have hCall : rectanglesIntersect r s = true :=
    (rectanglesIntersect_iff hR hS hValidR hValidS).mpr ⟨hFitR, hFitS, hMeets⟩
  rcases hR with ⟨hRx, hRy, hRw, hRh⟩
  rcases hS with ⟨hSx, hSy, hSw, hSh⟩
  unfold intersection
  rw [(isValid_iff r).mpr hValidR, (isValid_iff s).mpr hValidS, hCall,
    clipSpan_meet hRx hValidR.1 hValidS.1 hFitR.1 hFitS.1 hRw hSw
    hMeets.1, clipSpan_meet hRy hValidR.2 hValidS.2 hFitR.2 hFitS.2 hRh hSh hMeets.2]
  unfold Meets at hMeets
  simp only [Bool.and_self, if_true, meet, Prod.mk.injEq, true_and,
    Bool.not_eq_true', Bool.or_eq_false_iff, decide_eq_false_iff_not]
  omega

/- A call that fails -/
theorem intersection_fails {r s : Rectangle} (hR : r.InRange)
    (hS : s.InRange) (hValidR : 0 < r.w ∧ 0 < r.h)
    (hNot : ¬ (s.isValid = true ∧ r.EndsFit ∧ s.EndsFit ∧ r.Meets s)) :
    intersection r s = (r, false) := by
  unfold intersection
  rw [if_neg]
  simp only [Bool.and_eq_true]
  rintro ⟨⟨-, hValidS⟩, hCall⟩
  have hSizes := (isValid_iff s).mp hValidS
  exact hNot ⟨hValidS, (rectanglesIntersect_iff hR hS hValidR hSizes).mp hCall⟩

---
-- Differences
---

/- A valid rectangle with ends that fit, inside of another one -/
structure Within (inner outer : Rectangle) : Prop where
  valid : 0 < inner.w ∧ 0 < inner.h
  x_ge : outer.x ≤ inner.x
  y_ge : outer.y ≤ inner.y
  right_le : inner.x + inner.w ≤ outer.x + outer.w
  bottom_le : inner.y + inner.h ≤ outer.y + outer.h

/- The rectangles that the cuts work on -/
structure Sound (r : Rectangle) : Prop where
  inRange : r.InRange
  valid : 0 < r.w ∧ 0 < r.h
  endsFit : r.EndsFit

theorem Within.sound {inner outer : Rectangle}
    (hWithin : inner.Within outer) (hOuter : outer.Sound) : inner.Sound := by
  rcases hWithin with ⟨hValid, hX, hY, hRight, hBottom⟩
  rcases hOuter with ⟨⟨hOx, hOy, hOw, hOh⟩, -, hFit⟩
  unfold EndsFit intMax at hFit
  unfold CInt.InRange at hOx hOy hOw hOh
  refine ⟨⟨?_, ?_, ?_, ?_⟩, hValid, ?_⟩
  case refine_5 =>
    unfold EndsFit intMax
    omega
  all_goals
    unfold CInt.InRange
    omega

/- A rectangle is cut out of one that it lies in. -/
theorem intersection_within {inner outer : Rectangle}
    (hWithin : inner.Within outer) (hOuter : outer.Sound) :
    intersection outer inner = (inner, true) := by
  have hInner := hWithin.sound hOuter
  rcases hWithin with ⟨hValid, hX, hY, hRight, hBottom⟩
  rw [intersection_eq hOuter.inRange hInner.inRange hOuter.valid
    hValid hOuter.endsFit hInner.endsFit (by
      unfold Meets
      omega)]
  have hMeet : outer.meet inner = inner := by
    unfold meet
    rw [max_eq_right hX, max_eq_right hY, min_eq_right hRight,
      min_eq_right hBottom, add_sub_cancel_left, add_sub_cancel_left]
  rw [hMeet]

section

variable {thiz inter : Rectangle}

/- The rows above are cut off. -/
theorem subtractHeight_eq (hThiz : thiz.Sound)
    (hWithin : inter.Within thiz) :
    subtractHeight thiz inter =
      (⟨thiz.x, inter.y, thiz.w, thiz.y + thiz.h - inter.y⟩,
        ⟨thiz.x, thiz.y, thiz.w, inter.y - thiz.y⟩) := by
  rcases hThiz with ⟨⟨hTx, hTy, hTw, hTh⟩, hValid, hFit⟩
  rcases hWithin with ⟨hInner, hX, hY, hRight, hBottom⟩
  unfold EndsFit intMax at hFit
  unfold CInt.InRange at hTx hTy hTw hTh
  have hCut : wrap (thiz.h - wrap (inter.y - thiz.y)) = thiz.y + thiz.h - inter.y := by
    unfold wrap
    omega
  have hRest : wrap (thiz.h - (thiz.y + thiz.h - inter.y)) = inter.y - thiz.y := by
    unfold wrap
    omega
  have hStart : wrap (thiz.y + (inter.y - thiz.y)) = inter.y := by
    unfold wrap
    omega
  unfold subtractHeight heightCut
  rw [hCut]
  simp only [if_neg (show ¬ thiz.y + thiz.h - inter.y > thiz.h by
      omega), hRest, hStart, if_neg (show ¬ inter.y - thiz.y < 0 by omega)]
  rfl

/- The rows below are cut off. -/
theorem subtractY_eq (hThiz : thiz.Sound)
    (hWithin : inter.Within thiz) (hTop : thiz.y = inter.y) :
    subtractY thiz inter =
      (⟨thiz.x, inter.y, thiz.w, inter.h⟩, ⟨thiz.x, inter.y + inter.h,
      thiz.w, thiz.y + thiz.h - (inter.y + inter.h)⟩) := by
  unfold subtractY
  rw [intersection_within hWithin hThiz]
  rcases hThiz with ⟨⟨hTx, hTy, hTw, hTh⟩, hValid, hFit⟩
  rcases hWithin with ⟨hInner, hX, hY, hRight, hBottom⟩
  unfold EndsFit intMax at hFit
  unfold CInt.InRange at hTx hTy hTw hTh
  have hEnds : wrap (maxY thiz - maxY inter) = thiz.y + thiz.h - (inter.y + inter.h) := by
    unfold maxY wrap
    omega
  have hCut : wrap (thiz.h - (thiz.y + thiz.h - (inter.y + inter.h))) = inter.h := by
    unfold wrap
    omega
  have hRest : wrap (thiz.h - inter.h) = thiz.y + thiz.h - (inter.y + inter.h) := by
    unfold wrap
    omega
  have hStart : wrap (thiz.y + inter.h) = inter.y + inter.h := by
    unfold wrap
    omega
  simp only [if_true, hEnds, hCut, yCut, if_neg (show ¬ inter.h > thiz.h by omega), hRest, hStart]
  rw [hTop]
  rfl

/- The columns to the left are cut off. -/
theorem subtractWidth_eq (hThiz : thiz.Sound)
    (hWithin : inter.Within thiz) :
    subtractWidth thiz inter =
      (⟨inter.x, thiz.y, thiz.x + thiz.w - inter.x, thiz.h⟩,
        ⟨thiz.x, thiz.y, inter.x - thiz.x, thiz.h⟩) := by
  unfold subtractWidth
  rw [intersection_within hWithin hThiz]
  rcases hThiz with ⟨⟨hTx, hTy, hTw, hTh⟩, hValid, hFit⟩
  rcases hWithin with ⟨hInner, hX, hY, hRight, hBottom⟩
  unfold EndsFit intMax at hFit
  unfold CInt.InRange at hTx hTy hTw hTh
  have hCut : wrap (thiz.w - wrap (inter.x - thiz.x)) = thiz.x + thiz.w - inter.x := by
    unfold wrap
    omega
  have hRest : wrap (thiz.w - (thiz.x + thiz.w - inter.x)) = inter.x - thiz.x := by
    unfold wrap
    omega
  have hStart : wrap (thiz.x + (inter.x - thiz.x)) = inter.x := by
    unfold wrap
    omega
  simp only [if_true, hCut, widthCut, if_neg (show ¬ thiz.x + thiz.w - inter.x > thiz.w by omega),
    hRest, hStart, if_neg (show ¬ inter.x - thiz.x < 0 by omega)]
  rfl

/- The columns to the right are cut off. -/
theorem subtractX_eq (hThiz : thiz.Sound)
    (hWithin : inter.Within thiz) (hLeft : thiz.x = inter.x) :
    subtractX thiz inter =
      (⟨inter.x, thiz.y, inter.w, thiz.h⟩, ⟨inter.x + inter.w, thiz.y,
      thiz.x + thiz.w - (inter.x + inter.w), thiz.h⟩) := by
  unfold subtractX
  rw [intersection_within hWithin hThiz]
  rcases hThiz with ⟨⟨hTx, hTy, hTw, hTh⟩, hValid, hFit⟩
  rcases hWithin with ⟨hInner, hX, hY, hRight, hBottom⟩
  unfold EndsFit intMax at hFit
  unfold CInt.InRange at hTx hTy hTw hTh
  have hEnds : wrap (maxX thiz - maxX inter) = thiz.x + thiz.w - (inter.x + inter.w) := by
    unfold maxX wrap
    omega
  have hCut : wrap (thiz.w - (thiz.x + thiz.w - (inter.x + inter.w))) = inter.w := by
    unfold wrap
    omega
  have hRest : wrap (thiz.w - inter.w) = thiz.x + thiz.w - (inter.x + inter.w) := by
    unfold wrap
    omega
  have hStart : wrap (thiz.x + inter.w) = inter.x + inter.w := by
    unfold wrap
    omega
  simp only [if_true, hEnds, hCut, xCut, if_neg (show ¬ inter.w > thiz.w by omega), hRest, hStart]
  rw [hLeft]
  rfl

/- The four parts around a rectangle that lies in `thiz` -/
def around (thiz inter : Rectangle) : List Rectangle :=
  [⟨thiz.x, thiz.y, thiz.w, inter.y - thiz.y⟩,
    ⟨thiz.x, inter.y + inter.h, thiz.w,
      thiz.y + thiz.h - (inter.y + inter.h)⟩,
    ⟨thiz.x, inter.y, inter.x - thiz.x, inter.h⟩,
    ⟨inter.x + inter.w, inter.y,
      thiz.x + thiz.w - (inter.x + inter.w), inter.h⟩]

theorem subtract_eq {other : Rectangle} (out : List Rectangle)
    (hThiz : thiz.Sound) (hOther : other.Sound)
    (hMeets : thiz.Meets other) :
    subtract thiz other out = (around thiz (thiz.meet other), true) := by
  have hInter := intersection_eq hThiz.inRange hOther.inRange
    hThiz.valid hOther.valid hThiz.endsFit hOther.endsFit hMeets
  have hWithin : (thiz.meet other).Within thiz := by
    have hValid := hThiz.valid
    have hValid' := hOther.valid
    unfold Meets at hMeets
    unfold meet
    constructor <;> dsimp only <;> omega
  have hValid := hWithin.valid
  have hValid' := hThiz.valid
  rcases hWithin with ⟨-, hX, hY, hRight, hBottom⟩
  unfold subtract
  rw [hInter, (isValid_iff thiz).mpr hThiz.valid]
  generalize thiz.meet other = inter at *
  have hFirst : inter.Within ⟨thiz.x, inter.y, thiz.w, thiz.y + thiz.h - inter.y⟩ := by
    constructor
    case valid => exact hValid
    all_goals
      dsimp only
      omega
  have hSecond : inter.Within ⟨thiz.x, inter.y, thiz.w, inter.h⟩ := by
    constructor
    case valid => exact hValid
    all_goals
      dsimp only
      omega
  have hThird : inter.Within ⟨inter.x, inter.y, thiz.x + thiz.w - inter.x, inter.h⟩ := by
    constructor
    case valid => exact hValid
    all_goals
      dsimp only
      omega
  have hSound : ∀ r : Rectangle, r.Within thiz → r.Sound := fun r hIn => hIn.sound hThiz
  have hSound₁ := hSound
    ⟨thiz.x, inter.y, thiz.w, thiz.y + thiz.h - inter.y⟩ (by
      constructor <;> dsimp only <;> omega)
  have hSound₂ := hSound ⟨thiz.x, inter.y, thiz.w, inter.h⟩ (by
      constructor <;> dsimp only <;> omega)
  have hSound₃ := hSound
    ⟨inter.x, inter.y, thiz.x + thiz.w - inter.x, inter.h⟩ (by
      constructor <;> dsimp only <;> omega)
  simp only [if_true, Bool.not_true, Bool.false_eq_true, if_false]
  rw [subtractHeight_eq hThiz ⟨hValid, hX, hY, hRight, hBottom⟩]
  dsimp only
  rw [subtractY_eq hSound₁ hFirst rfl]
  dsimp only
  rw [subtractWidth_eq hSound₂ hSecond]
  dsimp only
  rw [subtractX_eq hSound₃ hThird rfl]
  dsimp only
  rw [show inter.y + (thiz.y + thiz.h - inter.y) - (inter.y +
      inter.h) = thiz.y + thiz.h - (inter.y + inter.h) by omega,
    show inter.x + (thiz.x + thiz.w - inter.x) - (inter.x + inter.w) =
      thiz.x + thiz.w - (inter.x + inter.w) by omega]
  rfl

/- What is to be in `out` -/
structure IsDifference (out : List Rectangle) (thiz other : Rectangle) : Prop where
  disjoint :
    out.Pairwise fun r s => Disjoint r.pixels s.pixels
  union : ∀ p, (∃ r ∈ out, p ∈ r.pixels) ↔
    p ∈ thiz.pixels ∧ p ∉ other.pixels

/- The parts around the common part are the difference. -/
theorem around_isDifference {other : Rectangle}
    (hValid : 0 < other.w ∧ 0 < other.h) (hMeets : thiz.Meets other) :
    IsDifference (around thiz (thiz.meet other)) thiz other := by
  unfold Meets at hMeets
  unfold around meet
  constructor
  · simp only [List.pairwise_cons, List.mem_cons,
      List.not_mem_nil, or_false, forall_eq_or_imp, forall_eq,
      false_implies, implies_true, List.Pairwise.nil, and_true,
      Set.disjoint_left, mem_pixels, add_sub_cancel, max_le_iff, lt_max_iff, lt_min_iff, min_le_iff]
    refine ⟨⟨?_, ?_, ?_⟩, ⟨?_, ?_⟩, ?_⟩
    all_goals
      intro p hFirst hSecond
      omega
  · intro p
    simp only [List.mem_cons, List.not_mem_nil, or_false,
      exists_eq_or_imp, exists_eq_left, mem_pixels, add_sub_cancel,
      max_le_iff, lt_max_iff, lt_min_iff, min_le_iff]
    constructor
    · omega
    · rintro ⟨hIn, hOut⟩
      by_cases hAbove : p.2 < other.y
      · exact Or.inl (by omega)
      · by_cases hBelow : other.y + other.h ≤ p.2
        · exact Or.inr (Or.inl (by omega))
        · by_cases hLeft : p.1 < other.x
          · exact Or.inr (Or.inr (Or.inl (by omega)))
          · exact Or.inr (Or.inr (Or.inr (by omega)))

/- Nothing is cut off. -/
theorem whole_isDifference {other : Rectangle} :
    IsDifference [thiz, init, init, init] thiz other ↔ Disjoint thiz.pixels other.pixels := by
  have hInit : ∀ p, p ∉ init.pixels := by
    intro p hMem
    rw [mem_pixels] at hMem
    unfold init at hMem
    dsimp only at hMem
    omega
  rw [Set.disjoint_left]
  constructor
  · rintro ⟨-, hUnion⟩ p hMem
    exact ((hUnion p).mp ⟨thiz, List.mem_cons_self, hMem⟩).2
  · intro hApart
    refine ⟨?_, fun p => ?_⟩
    · simp only [List.pairwise_cons, List.mem_cons, List.not_mem_nil,
        or_false, or_self, forall_eq, false_implies, implies_true,
        List.Pairwise.nil, and_true, Set.disjoint_left]
      exact ⟨fun p _ => hInit p, fun p _ => hInit p, fun p _ => hInit p⟩
    · simp only [List.mem_cons, List.not_mem_nil, or_false,
        or_self, exists_eq_or_imp, exists_eq_left, hInit p]
      exact ⟨fun hMem => ⟨hMem, hApart hMem⟩, fun hMem => hMem.1⟩

theorem meets_iff {other : Rectangle} (hValid : 0 < thiz.w ∧ 0 < thiz.h)
    (hValid' : 0 < other.w ∧ 0 < other.h) :
    thiz.Meets other ↔ ¬ Disjoint thiz.pixels other.pixels := by
  rw [Set.not_disjoint_iff]
  unfold Meets
  constructor
  · intro hMeets
    refine ⟨(max thiz.x other.x, max thiz.y other.y), ?_, ?_⟩
    · rw [mem_pixels]
      dsimp only
      omega
    · rw [mem_pixels]
      dsimp only
      omega
  · rintro ⟨p, hMem, hMem'⟩
    rw [mem_pixels] at hMem hMem'
    omega

end

/-
  The difference is what it is to be if the rectangles have
  nothing in common, or both end in the range of an `int`.
-/
theorem subtract_iff {thiz other : Rectangle}
    (out : List Rectangle) (hThiz : thiz.InRange)
    (hOther : other.InRange) (hValid : thiz.isValid = true) :
    IsDifference (subtract thiz other out).1 thiz other ↔
      Disjoint thiz.pixels other.pixels ∨
        thiz.EndsFit ∧ other.EndsFit := by
  have hSizes := (isValid_iff thiz).mp hValid
  by_cases hFull : other.isValid = true ∧ thiz.EndsFit ∧
      other.EndsFit ∧ thiz.Meets other
  · rcases hFull with ⟨hValid', hFit, hFit', hMeets⟩
    have hSizes' := (isValid_iff other).mp hValid'
    rw [subtract_eq out ⟨hThiz, hSizes, hFit⟩
      ⟨hOther, hSizes', hFit'⟩ hMeets]
    exact ⟨fun _ => Or.inr ⟨hFit, hFit'⟩,
      fun _ => around_isDifference hSizes' hMeets⟩
  · have hCall := intersection_fails hThiz hOther hSizes hFull
    unfold subtract
    rw [if_pos hValid, hCall]
    simp only [Bool.not_false, if_true]
    rw [whole_isDifference]
    constructor
    · exact Or.inl
    · rintro (hApart | ⟨hFit, hFit'⟩)
      · exact hApart
      · by_contra hMeets
        by_cases hSizes' : 0 < other.w ∧ 0 < other.h
        · exact hFull ⟨(isValid_iff other).mpr hSizes', hFit, hFit',
            (meets_iff hSizes hSizes').mpr hMeets⟩
        · rw [Set.not_disjoint_iff] at hMeets
          rcases hMeets with ⟨p, -, hMem⟩
          rw [mem_pixels] at hMem
          omega

theorem subtract_iff_sample :
    IsDifference (subtract ⟨0, 0, 10, 10⟩ ⟨2, 3, 4, 20⟩ []).1 ⟨0, 0, 10,
      10⟩ ⟨2, 3, 4, 20⟩ :=
  (subtract_iff [] (by decide) (by decide) (by decide)).mpr
    (Or.inr (by decide))

/- A rectangle that ends out of range, minus itself -/
theorem subtract_keeps_all :
    ¬ IsDifference (subtract ⟨2147483647, 0, 2, 1⟩ ⟨2147483647, 0, 2,
      1⟩ []).1 ⟨2147483647, 0, 2, 1⟩ ⟨2147483647, 0, 2, 1⟩ := by
  rintro ⟨-, hUnion⟩
  have hPixel := (hUnion (2147483647, 0)).mp
    ⟨⟨2147483647, 0, 2, 1⟩, by decide, by simp⟩
  exact hPixel.2 (by simp)

end Rectangle

end Efl.Eina
