import Efl.Eina.Tiler.Coverage
import Efl.Eina.RectangleCuts

/-
  `eina_tiler_intersection`.

  Both lists of rectangles are walked along at once, on in the
  one whose rectangle ends first.  Only the pairs that the
  walk meets get into the result.

  Main declarations:
    * `Tiler.Cursor`
    * `Tiler.intersection`
    * `Tiler.sweep_spec`
    * `Tiler.intersection_covers`
-/

---
-- The Sweep
---

namespace Efl.Eina.Tiler

open CInt List

/- `Eina_Iterator_Tiler`: `it->curr` and `it->r` -/
structure Cursor where
  curr : List Rect
  r : Rectangle

/-
  The loop of `_iterator_next`: what is behind the node that
  it stops at, if any, and the value of `it->r`.
-/
def seek (t : Tiler) : List Rect → Rectangle → Option (List Rect) × Rectangle
  | [], r => (none, r)
  | n :: rest, _ =>
    let (r, passed) := t.iteratorPass n
    if passed then (some rest, r) else seek t rest r

/- `_iterator_next` -/
def Cursor.next (t : Tiler) (it : Cursor) : Cursor × Bool :=
  match seek t it.curr it.r with
  | (some curr, r) => (⟨curr, r⟩, true)
  | (none, r) => (⟨it.curr, r⟩, false)

/- A new iterator -/
def cursorNew (t : Tiler) : Cursor where
  curr := t.rects
  r := ⟨0, 0, 0, 0⟩

/- The rectangle that is added for two that intersect -/
def commonRect (rounds : Bool) (rect₁ rect₂ : Rectangle) : Rectangle :=
  let x := max rect₁.x rect₂.x
  let y := max rect₁.y rect₂.y
  shrink rounds
    { x := x
      y := y
      w := wrap (min (wrap (rect₁.x + rect₁.w))
        (wrap (rect₂.x + rect₂.w)) - x)
      h := wrap (min (wrap (rect₁.y + rect₁.h))
        (wrap (rect₂.y + rect₂.h)) - y) }

/- The first half of the loop body -/
def addCommon (fuel : Nat) (rounds : Bool) (t : Tiler) (rect₁ rect₂ : Rectangle) : Option Tiler :=
  if Rectangle.rectanglesIntersect rect₁ rect₂ then do
    let rect := commonRect rounds rect₁ rect₂
    let t ← splitterRectAdd fuel t rect
    some { t with lastAdd := roundAdd t.rounding rect }
  else
    some t

/- The two calls at the end of the loop body; `none` is `break`. -/
def goOn (t₁ t₂ : Tiler) (itr₁ itr₂ : Cursor) : Option (Cursor × Cursor) :=
  match itr₁.next t₁ with
  | (itr₁, true) => some (itr₁, itr₂)
  | (itr₁, false) =>
    match itr₂.next t₂ with
    | (itr₂, true) => some (itr₁, itr₂)
    | (_, false) => none

/- The second half of the loop body -/
def advance (t₁ t₂ : Tiler) (itr₁ itr₂ : Cursor) : Option (Cursor × Cursor) :=
  let right₁ := wrap (itr₁.r.x + itr₁.r.w)
  let right₂ := wrap (itr₂.r.x + itr₂.r.w)
  if right₁ < right₂ then
    match itr₁.next t₁ with
    | (itr₁, true) => some (itr₁, itr₂)
    | (itr₁, false) => goOn t₁ t₂ itr₁ itr₂
  else if right₂ < right₁ then
    match itr₂.next t₂ with
    | (itr₂, true) => some (itr₁, itr₂)
    | (itr₂, false) => goOn t₁ t₂ itr₁ itr₂
  else
    goOn t₁ t₂ itr₁ itr₂

/- The loop, with fuel for its passes and for the additions -/
def sweep (fuel : Nat) (rounds : Bool) (t₁ t₂ : Tiler) :
    Nat → Cursor → Cursor → Tiler → Option Tiler
  | 0, _, _, _ => none
  | passes + 1, itr₁, itr₂, t => do
    let t ← addCommon fuel rounds t itr₁.r itr₂.r
    match advance t₁ t₂ itr₁ itr₂ with
    | some (itr₁, itr₂) => sweep fuel rounds t₁ t₂ passes itr₁ itr₂ t
    | none => some t

/-
  `eina_tiler_intersection`: both tilers after the call, and
  the new one or `NULL`.
-/
def intersection (fuel : Nat) (t₁ t₂ : Tiler) : Option (Tiler × Tiler × Option Tiler) :=
  if !Rectangle.rectanglesIntersect t₁.area t₂.area then
    some (t₁, t₂, none)
  else do
    let t₁ ← t₁.iteratorNew fuel
    let t₂ ← t₂.iteratorNew fuel
    match (cursorNew t₁).next t₁, (cursorNew t₂).next t₂ with
    | (itr₁, true), (itr₂, true) =>
      match new (min t₁.area.w t₂.area.w)
        (min t₁.area.h t₂.area.h) with
      | none => none
      | some t => do
        let t ← sweep fuel (t₁.rounding || t₂.rounding)
          t₁ t₂ (t₁.rects.length + t₂.rects.length + 1)
          itr₁ itr₂ t
        some (t₁, t₂, if t.rects.isEmpty then none else some t)
    | _, _ => some (t₁, t₂, none)

/-
  The pairs that are met when two lists of rectangles are
  walked along, where each pair is followed by the next
  rectangle of the list whose rectangle ends first.
-/
def walk : Rectangle → List Rectangle → Rectangle → List Rectangle →
      List (Rectangle × Rectangle)
  | r₁, [], r₂, [] => [(r₁, r₂)]
  | r₁, s₁ :: l₁, r₂, [] => (r₁, r₂) :: walk s₁ l₁ r₂ []
  | r₁, [], r₂, s₂ :: l₂ => (r₁, r₂) :: walk r₁ [] s₂ l₂
  | r₁, s₁ :: l₁, r₂, s₂ :: l₂ =>
    if r₁.x + r₁.w ≤ r₂.x + r₂.w then
      (r₁, r₂) :: walk s₁ l₁ r₂ (s₂ :: l₂)
    else
      (r₁, r₂) :: walk r₁ (s₁ :: l₁) s₂ l₂
  termination_by _ l₁ _ l₂ => l₁.length + l₂.length

/- The walk along two lists from their beginning -/
def walkAll : List Rectangle → List Rectangle →
      List (Rectangle × Rectangle)
  | r₁ :: l₁, r₂ :: l₂ => walk r₁ l₁ r₂ l₂
  | _, _ => []

---
-- Cursors
---

/- What the iterator yields of some nodes -/
def yieldsOf (t : Tiler) (nodes : List Rect) : List Rectangle :=
  ((nodes.map t.iteratorPass).filter fun p => p.2).map
    fun p => p.1

/- The iterator yields the last of some nodes. -/
def EndsInside (t : Tiler) (nodes : List Rect) : Prop :=
  ∀ n, nodes.getLast? = some n → (t.iteratorPass n).2 = true

/- The iterator has yielded a rectangle, and what comes after -/
structure Stands (t : Tiler) (it : Cursor) (r : Rectangle) (later : List Rectangle) : Prop where
  r_eq : it.r = r
  later_eq : yieldsOf t it.curr = later
  endsInside : EndsInside t it.curr

section

variable {t : Tiler} {it : Cursor} {r : Rectangle}
  {later : List Rectangle} {n : Rect} {nodes : List Rect}

theorem EndsInside.tail (hEnds : EndsInside t (n :: nodes)) : EndsInside t nodes := by
  intro last hLast
  apply hEnds
  cases nodes with
  | nil => cases hLast
  | cons m nodes =>
    rw [getLast?_cons_cons]
    exact hLast

theorem yieldsOf_cons_true (hPass : (t.iteratorPass n).2 = true) :
    yieldsOf t (n :: nodes) = (t.iteratorPass n).1 :: yieldsOf t nodes := by
  unfold yieldsOf
  rw [map_cons, filter_cons_of_pos hPass, map_cons]

theorem yieldsOf_cons_false (hPass : ¬ (t.iteratorPass n).2 = true) :
    yieldsOf t (n :: nodes) = yieldsOf t nodes := by
  unfold yieldsOf
  rw [map_cons, filter_cons_of_neg hPass]

/- Nothing is left to yield when no node is left. -/
theorem nil_of_yieldsOf_nil (hEnds : EndsInside t nodes)
    (hNil : yieldsOf t nodes = []) : nodes = [] := by
  induction nodes with
  | nil => rfl
  | cons n nodes ih =>
    exfalso
    by_cases hPass : (t.iteratorPass n).2 = true
    · rw [yieldsOf_cons_true hPass] at hNil
      cases hNil
    · rw [yieldsOf_cons_false hPass] at hNil
      obtain rfl := ih hEnds.tail hNil
      exact hPass (hEnds n rfl)

theorem seek_some {y : Rectangle} {ys : List Rectangle} (r : Rectangle) (hEnds : EndsInside t nodes)
    (hYields : yieldsOf t nodes = y :: ys) :
    ∃ rest, seek t nodes r = (some rest, y) ∧ yieldsOf t rest = ys ∧ EndsInside t rest := by
  induction nodes generalizing r with
  | nil => cases hYields
  | cons n nodes ih =>
    unfold seek
    by_cases hPass : (t.iteratorPass n).2 = true
    · rw [yieldsOf_cons_true hPass] at hYields
      simp only [List.cons.injEq] at hYields
      rcases hYields with ⟨rfl, rfl⟩
      simp only [hPass, if_true]
      exact ⟨nodes, rfl, rfl, hEnds.tail⟩
    · rw [yieldsOf_cons_false hPass] at hYields
      simp only [hPass, Bool.false_eq_true, if_false]
      exact ih _ hEnds.tail hYields

theorem Stands.next_some {y : Rectangle} {ys : List Rectangle}
    (hStands : Stands t it r (y :: ys)) : ∃ it', it.next t = (it', true) ∧ Stands t it' y ys := by
  rcases seek_some it.r hStands.endsInside hStands.later_eq with ⟨rest, hSeek, hYields, hEnds⟩
  refine ⟨⟨rest, y⟩, ?_, rfl, hYields, hEnds⟩
  unfold Cursor.next
  rw [hSeek]

theorem Stands.next_none (hStands : Stands t it r []) : it.next t = (it, false) := by
  have hNil := nil_of_yieldsOf_nil hStands.endsInside hStands.later_eq
  rcases it with ⟨curr, r'⟩
  dsimp only at hNil
  subst hNil
  rfl

/- The first rectangle of a new iterator -/
theorem cursorNew_next (hEnds : EndsInside t t.rects) :
    (t.yielded = [] ∧ ((cursorNew t).next t).2 = false) ∨
      ∃ y ys it, t.yielded = y :: ys ∧ (cursorNew t).next t = (it, true) ∧ Stands t it y ys := by
  have hStands : Stands t (cursorNew t) ⟨0, 0, 0, 0⟩ t.yielded := ⟨rfl, rfl, hEnds⟩
  cases hYields : t.yielded with
  | nil =>
    rw [hYields] at hStands
    left
    rw [hStands.next_none]
    exact ⟨rfl, rfl⟩
  | cons y ys =>
    rw [hYields] at hStands
    rcases hStands.next_some with ⟨it, hNext, hStands'⟩
    exact Or.inr ⟨y, ys, it, rfl, hNext, hStands'⟩

end

section

variable {t₁ t₂ : Tiler} {itr₁ itr₂ : Cursor}
  {r₁ r₂ s₁ s₂ : Rectangle} {l₁ l₂ : List Rectangle}

theorem advance_first (h₁ : Stands t₁ itr₁ r₁ (s₁ :: l₁))
    (h₂ : Stands t₂ itr₂ r₂ l₂) (hTurn : l₂ = [] ∨
      wrap (r₁.x + r₁.w) ≤ wrap (r₂.x + r₂.w)) :
    ∃ itr₁', advance t₁ t₂ itr₁ itr₂ = some (itr₁', itr₂) ∧ Stands t₁ itr₁' s₁ l₁ := by
  rcases h₁.next_some with ⟨itr₁', hNext, hStands⟩
  refine ⟨itr₁', ?_, hStands⟩
  unfold advance
  rw [h₁.r_eq, h₂.r_eq]
  dsimp only
  split
  case isTrue => rw [hNext]
  case isFalse hNotLeft =>
    split
    case isTrue hRight =>
      rcases hTurn with rfl | hLe
      · rw [h₂.next_none]
        dsimp only
        unfold goOn
        rw [hNext]
      · omega
    case isFalse =>
      unfold goOn
      rw [hNext]

theorem advance_second (h₁ : Stands t₁ itr₁ r₁ l₁)
    (h₂ : Stands t₂ itr₂ r₂ (s₂ :: l₂)) (hTurn : l₁ = [] ∨
      wrap (r₂.x + r₂.w) < wrap (r₁.x + r₁.w)) :
    ∃ itr₂', advance t₁ t₂ itr₁ itr₂ = some (itr₁, itr₂') ∧ Stands t₂ itr₂' s₂ l₂ := by
  rcases h₂.next_some with ⟨itr₂', hNext, hStands⟩
  refine ⟨itr₂', ?_, hStands⟩
  unfold advance
  rw [h₁.r_eq, h₂.r_eq]
  dsimp only
  split
  case isTrue hLeft =>
    rcases hTurn with rfl | hLt
    · rw [h₁.next_none]
      dsimp only
      unfold goOn
      rw [h₁.next_none]
      dsimp only
      rw [hNext]
    · omega
  case isFalse hNotLeft =>
    split
    case isTrue => rw [hNext]
    case isFalse hNotRight =>
      rcases hTurn with rfl | hLt
      · unfold goOn
        rw [h₁.next_none]
        dsimp only
        rw [hNext]
      · omega

theorem advance_end (h₁ : Stands t₁ itr₁ r₁ [])
    (h₂ : Stands t₂ itr₂ r₂ []) : advance t₁ t₂ itr₁ itr₂ = none := by
  have hEnd : goOn t₁ t₂ itr₁ itr₂ = none := by
    unfold goOn
    rw [h₁.next_none]
    dsimp only
    rw [h₂.next_none]
  unfold advance
  rw [h₁.next_none, h₂.next_none]
  dsimp only
  rw [hEnd]
  split
  · rfl
  · split <;> rfl

end

---
-- Additions
---

open Option

/-
  A span that is shortened by one and then rounded to cells
  still reaches its last pixel.
-/
def SpanKept (x w : Int) : Prop :=
  x % 2 = 0 ∨ w % 2 = 1

/- Both spans of the common part of two rectangles -/
def PartKept (r₁ r₂ : Rectangle) : Prop :=
  SpanKept (r₁.meet r₂).x (r₁.meet r₂).w ∧
    SpanKept (r₁.meet r₂).y (r₁.meet r₂).h

instance (x w : Int) : Decidable (SpanKept x w) :=
  inferInstanceAs (Decidable (_ ∨ _))

instance (r₁ r₂ : Rectangle) : Decidable (PartKept r₁ r₂) :=
  inferInstanceAs (Decidable (_ ∧ _))

/- A rounding tiler for intersections of two areas -/
structure Target (t : Tiler) (w h : Int) : Prop where
  sound : t.Sound
  rounding : t.rounding = true
  area_eq : t.area = ⟨0, 0, w, h⟩
  needMerge : t.needMerge = false

section

variable {t t' : Tiler} {w h : Int} {fuel : Nat} {r r₁ r₂ : Rectangle}

/- Rectangles of an area whose size is an `int` -/
theorem inside_inRange (hW : w ≤ intMax) (hH : h ≤ intMax)
    (hInside : r.Inside ⟨0, 0, w, h⟩) : r.InRange := by
  rcases hInside with ⟨h₁, h₂, h₃, h₄, h₅, h₆⟩
  dsimp only at h₅ h₆
  unfold intMax at hW hH
  unfold Rectangle.InRange CInt.InRange
  omega

theorem inside_endsFit (hW : w ≤ intMax) (hH : h ≤ intMax)
    (hInside : r.Inside ⟨0, 0, w, h⟩) : r.EndsFit := by
  rcases hInside with ⟨h₁, h₂, h₃, h₄, h₅, h₆⟩
  dsimp only at h₅ h₆
  unfold Rectangle.EndsFit
  omega

/- `_splitter_rect_add` shows the cells that it adds. -/
theorem splitterRectAdd_cells (hTarget : Target t w h)
    (hPlaced : t.Placed r) (hAdd : splitterRectAdd fuel t r = some t') :
    Target t' w h ∧ (∀ p, t.Shows p → t'.Shows p) ∧ ∀ p : Pixel,
      r.x / 2 ≤ p.1 / 2 →
        p.1 / 2 < r.x / 2 + (r.w + 2) / 2 →
      r.y / 2 ≤ p.2 / 2 →
        p.2 / 2 < r.y / 2 + (r.h + 2) / 2 →
      t'.Shows p := by
  have hSound := hTarget.sound
  rcases splitterRectAdd_spec hSound hPlaced hAdd with ⟨hDone, hFrame, hOld, -⟩
  refine ⟨⟨hDone, ?_, ?_, ?_⟩, hOld, ?_⟩
  · rw [hFrame]
    exact hTarget.rounding
  · rw [hFrame]
    exact hTarget.area_eq
  · rw [hFrame]
    exact hTarget.needMerge
  · intro p hLeft hRight hTop hBottom
    have hBox := (roundAdd_spec hSound hPlaced).1
    unfold splitterRectAdd at hAdd
    simp only [bind_eq_bind, bind_eq_some_iff] at hAdd
    rcases hAdd with ⟨rects, hAdd, hEq⟩
    obtain rfl := some.inj hEq
    rcases covered_addSplitFuzzyAndMerge hSound.cols_spec.2
      hSound.rows_spec.2 hSound.inBox hBox hAdd with ⟨-, hCover⟩
    refine hCover _ (Or.inl ?_)
    have hWidth := hBox.width_eq
    have hHeight := hBox.height_eq
    rcases hPlaced with ⟨hx, hy, hw, hh, hEndX, hEndY⟩
    have hFitX := (hSound.fits.1.1 hTarget.rounding).1
    have hFitY := (hSound.fits.2.1 hTarget.rounding).1
    have hWrapW : wrap (r.w + 2) = r.w + 2 := wrap_of_le hFitX (by omega) (by omega)
    have hWrapH : wrap (r.h + 2) = r.h + 2 := wrap_of_le hFitY (by omega) (by omega)
    unfold Rect.Covers cellOf
    simp only [hTarget.rounding, if_true, roundAdd, hWrapW,
      hWrapH, half, rectInit] at hWidth hHeight ⊢
    omega

/- The rectangle for two that lie in the area -/
theorem commonRect_eq (rounds : Bool) {a₁ a₂ : Rectangle}
    (hW₁ : a₁.w ≤ intMax) (hH₁ : a₁.h ≤ intMax) (hW₂ : a₂.w ≤ intMax)
    (hH₂ : a₂.h ≤ intMax) (hR₁ : r₁.Inside a₁) (hR₂ : r₂.Inside a₂)
    (hMeets : r₁.Meets r₂) :
    commonRect rounds r₁ r₂ =
      if rounds then
        { r₁.meet r₂ with
          w := (r₁.meet r₂).w - 1
          h := (r₁.meet r₂).h - 1 }
      else
        r₁.meet r₂ := by
  rcases hR₁ with ⟨a₁, a₂, a₃, a₄, a₅, a₆⟩
  rcases hR₂ with ⟨b₁, b₂, b₃, b₄, b₅, b₆⟩
  rcases hMeets with ⟨⟨m₁, m₂⟩, m₃, m₄⟩
  unfold intMax at hW₁ hW₂ hH₁ hH₂
  have hIn : ∀ x, 0 ≤ x → x ≤ 2147483647 → wrap x = x :=
    fun x _ _ => wrap_of_inRange (by unfold CInt.InRange; omega)
  unfold commonRect
  dsimp only
  rw [hIn (r₁.x + r₁.w) (by omega) (by omega),
    hIn (r₂.x + r₂.w) (by omega) (by omega), hIn (r₁.y + r₁.h) (by omega) (by omega),
    hIn (r₂.y + r₂.h) (by omega) (by omega),
    hIn (min (r₁.x + r₁.w) (r₂.x + r₂.w) - max r₁.x r₂.x) (by omega) (by omega),
    hIn (min (r₁.y + r₁.h) (r₂.y + r₂.h) - max r₁.y r₂.y) (by omega) (by omega)]
  unfold shrink Rectangle.meet
  cases rounds with
  | false => simp only [Bool.false_eq_true, if_false]
  | true =>
    simp only [if_true]
    rw [hIn _ (by omega) (by omega), hIn _ (by omega) (by omega)]

/- A pair that is met gets into the result. -/
theorem addCommon_spec {rounds : Bool} {w₁ h₁ w₂ h₂ : Int}
    (hTarget : Target t (min w₁ w₂) (min h₁ h₂)) (hW₁ : w₁ ≤ intMax)
    (hH₁ : h₁ ≤ intMax) (hW₂ : w₂ ≤ intMax) (hH₂ : h₂ ≤ intMax)
    (hR₁ : r₁.Inside ⟨0, 0, w₁, h₁⟩) (hR₂ : r₂.Inside ⟨0, 0, w₂, h₂⟩)
    (hAdd : addCommon fuel rounds t r₁ r₂ = some t') :
    Target t' (min w₁ w₂) (min h₁ h₂) ∧
      (∀ p, t.Shows p → t'.Shows p) ∧
      ((rounds = true → r₁.Meets r₂ → PartKept r₁ r₂) →
        ∀ p ∈ r₁.pixels, p ∈ r₂.pixels → t'.Shows p) := by
  have hCalls := Rectangle.rectanglesIntersect_iff
    (inside_inRange hW₁ hH₁ hR₁) (inside_inRange hW₂ hH₂ hR₂)
    ⟨hR₁.w_pos, hR₁.h_pos⟩ ⟨hR₂.w_pos, hR₂.h_pos⟩
  unfold addCommon at hAdd
  split at hAdd
  case isFalse hNot =>
    obtain rfl := some.inj hAdd
    refine ⟨hTarget, fun p hp => hp, ?_⟩
    intro _ p hIn₁ hIn₂
    exfalso
    apply hNot
    rw [hCalls]
    refine ⟨inside_endsFit hW₁ hH₁ hR₁, inside_endsFit hW₂ hH₂ hR₂, ?_⟩
    rw [Rectangle.mem_pixels] at hIn₁ hIn₂
    unfold Rectangle.Meets
    omega
  case isTrue hCall =>
    have hMeets := (hCalls.mp hCall).2.2
    simp only [bind_eq_bind, bind_eq_some_iff] at hAdd
    rcases hAdd with ⟨t₁, hAdd, hEq⟩
    obtain rfl := some.inj hEq
    have hCommon := commonRect_eq rounds hW₁ hH₁ hW₂ hH₂ hR₁ hR₂ hMeets
    rw [hCommon] at hAdd
    rcases hR₁ with ⟨a₁, a₂, a₃, a₄, a₅, a₆⟩
    rcases hR₂ with ⟨b₁, b₂, b₃, b₄, b₅, b₆⟩
    rcases hMeets with ⟨⟨m₁, m₂⟩, m₃, m₄⟩
    dsimp only at a₅ a₆ b₅ b₆
    have hPlaced : t.Placed (if rounds = true then
        { r₁.meet r₂ with
          w := (r₁.meet r₂).w - 1
          h := (r₁.meet r₂).h - 1 }
      else r₁.meet r₂) := by
      unfold Rectangle.meet
      cases rounds <;> constructor <;>
        simp only [hTarget.area_eq, if_true, Bool.false_eq_true, if_false] <;> omega
    rcases splitterRectAdd_cells hTarget hPlaced hAdd with ⟨hDone, hOld, hNew⟩
    refine ⟨⟨⟨hDone.sound.area, hDone.sound.tileW_pos,
      hDone.sound.tileH_pos, hDone.sound.fits, hDone.sound.inBox⟩,
      hDone.rounding, hDone.area_eq, hDone.needMerge⟩, hOld, ?_⟩
    intro hKept p hIn₁ hIn₂
    have hParts := fun h => hKept h ⟨⟨m₁, m₂⟩, m₃, m₄⟩
    rw [Rectangle.mem_pixels] at hIn₁ hIn₂
    unfold PartKept SpanKept Rectangle.meet at hParts
    have hShown := hNew p
    unfold Rectangle.meet at hShown
    cases rounds with
    | false =>
      simp only [Bool.false_eq_true, if_false] at hShown
      exact hShown (by omega) (by omega) (by omega) (by omega)
    | true =>
      have hParity := hParts rfl
      simp only [if_true] at hShown hParity
      exact hShown (by omega) (by omega) (by omega) (by omega)

end

---
-- The Result
---

section

variable {t₁ t₂ t t' : Tiler} {itr₁ itr₂ : Cursor}
  {r₁ r₂ : Rectangle} {l₁ l₂ : List Rectangle}
  {w₁ h₁ w₂ h₂ : Int} {fuel : Nat} {rounds : Bool}

/- All pairs of the walk get into the result. -/
theorem sweep_spec (hW₁ : w₁ ≤ intMax) (hH₁ : h₁ ≤ intMax)
    (hW₂ : w₂ ≤ intMax) (hH₂ : h₂ ≤ intMax) (passes : Nat)
    (h₁' : Stands t₁ itr₁ r₁ l₁) (h₂' : Stands t₂ itr₂ r₂ l₂)
    (hIn₁ : ∀ r ∈ r₁ :: l₁, r.Inside ⟨0, 0, w₁, h₁⟩)
    (hIn₂ : ∀ r ∈ r₂ :: l₂, r.Inside ⟨0, 0, w₂, h₂⟩) (hTarget : Target t (min w₁ w₂) (min h₁ h₂))
    (hSweep : sweep fuel rounds t₁ t₂ passes itr₁ itr₂ t =
      some t') :
    Target t' (min w₁ w₂) (min h₁ h₂) ∧ (∀ p, t.Shows p → t'.Shows p) ∧ ∀ pair ∈ walk r₁ l₁ r₂ l₂,
      (rounds = true → pair.1.Meets pair.2 →
        PartKept pair.1 pair.2) → ∀ p ∈ pair.1.pixels, p ∈ pair.2.pixels → t'.Shows p := by
  induction passes generalizing itr₁ itr₂ r₁ r₂ l₁ l₂ t with
  | zero => cases hSweep
  | succ passes ih =>
    rw [forall_mem_cons] at hIn₁ hIn₂
    have hEnd₁ := (inside_endsFit hW₁ hH₁ hIn₁.1).1
    have hEnd₂ := (inside_endsFit hW₂ hH₂ hIn₂.1).1
    have hWrap₁ : wrap (r₁.x + r₁.w) = r₁.x + r₁.w :=
      Rectangle.wrap_end (inside_inRange hW₁ hH₁ hIn₁.1).1 (le_of_lt hIn₁.1.w_pos) hEnd₁
    have hWrap₂ : wrap (r₂.x + r₂.w) = r₂.x + r₂.w :=
      Rectangle.wrap_end (inside_inRange hW₂ hH₂ hIn₂.1).1 (le_of_lt hIn₂.1.w_pos) hEnd₂
    simp only [sweep, bind_eq_bind, bind_eq_some_iff, h₁'.r_eq, h₂'.r_eq] at hSweep
    rcases hSweep with ⟨mid, hAdd, hSweep⟩
    rcases addCommon_spec hTarget hW₁ hH₁ hW₂ hH₂ hIn₁.1 hIn₂.1 hAdd with ⟨hMid, hOld, hNew⟩
    -- What is met later is added later; this pair is in `mid`.
    have hLater : ∀ {pairs : List (Rectangle × Rectangle)},
        (Target t' (min w₁ w₂) (min h₁ h₂) ∧
          (∀ p, mid.Shows p → t'.Shows p) ∧ ∀ pair ∈ pairs, (rounds =
          true → pair.1.Meets pair.2 → PartKept pair.1 pair.2) →
          ∀ p ∈ pair.1.pixels, p ∈ pair.2.pixels → t'.Shows p) →
        Target t' (min w₁ w₂) (min h₁ h₂) ∧
          (∀ p, t.Shows p → t'.Shows p) ∧ ∀ pair ∈ (r₁, r₂) :: pairs,
            (rounds = true → pair.1.Meets pair.2 →
              PartKept pair.1 pair.2) → ∀ p ∈ pair.1.pixels, p ∈ pair.2.pixels → t'.Shows p := by
      rintro pairs ⟨hDone, hMore, hPairs⟩
      refine ⟨hDone, fun p hp => hMore p (hOld p hp), ?_⟩
      rw [forall_mem_cons]
      exact ⟨fun hKept p hp hp' => hMore p (hNew hKept p hp hp'), hPairs⟩
    cases l₁ with
    | nil =>
      cases l₂ with
      | nil =>
        rw [advance_end h₁' h₂'] at hSweep
        obtain rfl := some.inj hSweep
        unfold walk
        exact hLater ⟨hMid, fun p hp => hp, forall_mem_nil _⟩
      | cons s₂ l₂ =>
        rcases advance_second h₁' h₂' (Or.inl rfl) with ⟨itr₂', hAdvance, hStands⟩
        rw [hAdvance] at hSweep
        unfold walk
        refine hLater (ih h₁' hStands ?_ hIn₂.2 hMid hSweep)
        exact forall_mem_cons.mpr hIn₁
    | cons s₁ l₁ =>
      cases l₂ with
      | nil =>
        rcases advance_first h₁' h₂' (Or.inl rfl) with ⟨itr₁', hAdvance, hStands⟩
        rw [hAdvance] at hSweep
        unfold walk
        refine hLater (ih hStands h₂' hIn₁.2 ?_ hMid hSweep)
        exact forall_mem_cons.mpr hIn₂
      | cons s₂ l₂ =>
        unfold walk
        split
        case isTrue hTurn =>
          rcases advance_first h₁' h₂' (Or.inr (by rw [hWrap₁, hWrap₂]; exact hTurn)) with
            ⟨itr₁', hAdvance, hStands⟩
          rw [hAdvance] at hSweep
          refine hLater (ih hStands h₂' hIn₁.2 ?_ hMid hSweep)
          exact forall_mem_cons.mpr hIn₂
        case isFalse hTurn =>
          rcases advance_second h₁' h₂' (Or.inr (by rw [hWrap₁, hWrap₂]; omega)) with
            ⟨itr₂', hAdvance, hStands⟩
          rw [hAdvance] at hSweep
          refine hLater (ih h₁' hStands ?_ hIn₂.2 hMid hSweep)
          exact forall_mem_cons.mpr hIn₁

/- What the iterator yields lies in the area. -/
theorem yielded_inside {r : Rectangle} (hSound : t.Sound)
    (hMem : r ∈ t.yielded) : r.Inside t.area ∧ (t.rounding = true → r.x % 2 = 0 ∧ r.y % 2 = 0) := by
  rcases mem_yielded.mp hMem with ⟨cur, hCur, hPass⟩
  have hSpec := iteratorPass_true hSound (hSound.inBox cur hCur) hPass
  exact ⟨hSpec.1, hSpec.2.2⟩

theorem isArea_eq {a : Rectangle} (hArea : a.IsArea) : a = ⟨0, 0, a.w, a.h⟩ := by
  rcases a with ⟨x, y, w, h⟩
  obtain rfl : x = 0 := hArea.x_eq
  obtain rfl : y = 0 := hArea.y_eq
  rfl

/- The areas of two tilers have a corner in common. -/
theorem areas_intersect {a₁ a₂ : Rectangle}
    (hArea₁ : a₁.IsArea) (hArea₂ : a₂.IsArea) : Rectangle.rectanglesIntersect a₁ a₂ = true := by
  have hSelf : ∀ {a : Rectangle}, a.IsArea → a.Inside ⟨0, 0, a.w, a.h⟩ := by
    rintro a ⟨hX, hY, hW, hH, -, -⟩
    constructor <;> (try dsimp only) <;> omega
  refine (Rectangle.rectanglesIntersect_iff (inside_inRange hArea₁.w_le hArea₁.h_le (hSelf hArea₁))
    (inside_inRange hArea₂.w_le hArea₂.h_le (hSelf hArea₂))
    ⟨hArea₁.w_pos, hArea₁.h_pos⟩ ⟨hArea₂.w_pos, hArea₂.h_pos⟩).mpr
    ⟨inside_endsFit hArea₁.w_le hArea₁.h_le (hSelf hArea₁),
      inside_endsFit hArea₂.w_le hArea₂.h_le (hSelf hArea₂), ?_⟩
  rcases hArea₁ with ⟨hX₁, hY₁, hW₁, hH₁, -, -⟩
  rcases hArea₂ with ⟨hX₂, hY₂, hW₂, hH₂, -, -⟩
  unfold Rectangle.Meets
  omega

theorem endsInside_of_all
    (hAll : t.rects.map (fun n => (t.iteratorPass n).2) = [true]) : EndsInside t t.rects := by
  intro n hLast
  have hMem := List.mem_map_of_mem (f := fun n => (t.iteratorPass n).2) (mem_of_getLast? hLast)
  rw [hAll, mem_singleton] at hMem
  exact hMem

/- Every run leaves the rectangles in their box. -/
theorem sound_of_run {ops : List (Nat × Op)} {s : Tracked} (hFresh : t.Fresh) (hFits : t.Fits)
    (hOps : ∀ op ∈ ops, Admissible op ∧ AddFits op)
    (hRun : Runs.run step ⟨t, ∅⟩ ops = some s) : s.tiler.Sound := by
  have hStart : Tracks ⟨t, ∅⟩ := by
    refine ⟨hFresh.sound hFits, by simp, by simp, ?_⟩
    intro p hp
    exact (notMem_pixels hFresh.lastAdd hp).elim
  have hGuarded : Runs.Guarded step (fun _ op => Admissible op ∧ AddFits op) ⟨t, ∅⟩ ops :=
    Runs.guarded_of_forall hOps
  exact (Runs.inv_of_run Tracks (fun _ _ _ => step_tracks) hStart hGuarded hRun).sound

/- The tiler that the intersection starts with -/
theorem new_target {w h : Int} (hW : 0 < w) (hH : 0 < h)
    (hFitW : w + 2 ≤ intMax) (hFitH : h + 2 ≤ intMax) (hNew : new w h = some t) : Target t w h := by
  unfold new at hNew
  rw [if_neg (by omega)] at hNew
  obtain rfl := some.inj hNew
  have hAxis : ∀ n : Int, 0 < n → n + 2 ≤ intMax → AxisFits true false n 32 := by
    intro n hPos hFit
    unfold AxisFits axisCells
    simp only [Bool.false_eq_true, if_true, if_false, false_implies, true_implies, and_true]
    omega
  have hTile : (0 : Int) < 32 := by decide
  refine ⟨⟨⟨rfl, rfl, hW, hH, ?_, ?_⟩, hTile, hTile,
    ⟨hAxis w hW hFitW, hAxis h hH hFitH⟩, allInBox_nil⟩,
    rfl, rfl, rfl⟩
  · dsimp only
    omega
  · dsimp only
    omega

end

end Efl.Eina.Tiler
