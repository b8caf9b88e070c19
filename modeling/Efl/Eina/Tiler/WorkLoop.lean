import Efl.Eina.Tiler.Geometry

/-
  What one pass of the work loop of
  `rect_list_add_split_fuzzy` does to rectangles that lie in
  one large rectangle.

  Main declarations:
    * `Tiler.Canvas`, `Tiler.Within`
    * `Tiler.mergePartner`
    * `Tiler.calcIntra_eq`, `Tiler.calcOuterRectArea_eq`
    * `Tiler.splitFuzzy_eq`
-/

---
-- Rectangles of a Canvas
---

namespace Efl.Eina.Tiler

open CInt

/- A rectangle whose area is an `int` -/
structure Canvas (v : Rect) : Prop where
  solid : Solid v
  area_le : v.width * v.height ≤ intMax

/- A solid rectangle that lies in the canvas -/
structure Within (v r : Rect) : Prop where
  solid : Solid r
  left_ge : v.left ≤ r.left
  right_le : r.right ≤ v.right
  top_ge : v.top ≤ r.top
  bottom_le : r.bottom ≤ v.bottom

/- All cells of the first rectangle are in the second. -/
structure Inside (q r : Rect) : Prop where
  left_ge : r.left ≤ q.left
  right_le : q.right ≤ r.right
  top_ge : r.top ≤ q.top
  bottom_le : q.bottom ≤ r.bottom

theorem Inside.covers {q r : Rect} {p : Pixel}
    (hInside : Inside q r) (hCovers : q.Covers p) : r.Covers p := by
  rcases hInside with ⟨h₁, h₂, h₃, h₄⟩
  unfold Rect.Covers at hCovers ⊢
  omega

/- The bounding box of two rectangles, by its ends -/
def outerBox (a b : Rect) : Rect where
  left := min a.left b.left
  right := max a.right b.right
  top := min a.top b.top
  bottom := max a.bottom b.bottom
  width := max a.right b.right - min a.left b.left
  height := max a.bottom b.bottom - min a.top b.top
  area := wrap ((max a.right b.right - min a.left b.left) *
    (max a.bottom b.bottom - min a.top b.top))

section

variable {v a b : Rect}

/- A product of sizes in the canvas does not wrap. -/
theorem Canvas.wrap_mul {w h : Int} (hCanvas : Canvas v)
    (hW : 0 ≤ w) (hH : 0 ≤ h) (hWidth : w ≤ v.right - v.left)
    (hHeight : h ≤ v.bottom - v.top) : wrap (w * h) = w * h ∧ w * h ≤ intMax := by
  have hArea := hCanvas.area_le
  rw [hCanvas.solid.width_eq, hCanvas.solid.height_eq] at hArea
  have hLe : w * h ≤ (v.right - v.left) * (v.bottom - v.top) :=
    Int.mul_le_mul hWidth hHeight hH (by omega)
  have hNonneg : 0 ≤ w * h := Int.mul_nonneg hW hH
  refine ⟨wrap_of_inRange ?_, le_trans hLe hArea⟩
  unfold intMax at hArea
  unfold CInt.InRange
  omega

theorem Within.area_eq (hCanvas : Canvas v) (hA : Within v a) :
    a.area = (a.right - a.left) * (a.bottom - a.top) := by
  rcases hA with ⟨hSolid, h₁, h₂, h₃, h₄⟩
  have hLeft := hSolid.left_lt
  have hTop := hSolid.top_lt
  rw [hSolid.area_eq, hSolid.width_eq, hSolid.height_eq]
  exact (hCanvas.wrap_mul (by omega) (by omega) (by omega) (by omega)).1

theorem Within.area_pos (hCanvas : Canvas v) (hA : Within v a) : 0 < a.area := by
  have hLeft := hA.solid.left_lt
  have hTop := hA.solid.top_lt
  rw [hA.area_eq hCanvas]
  exact Int.mul_pos (by omega) (by omega)

theorem strip_within {left top right bottom : Int}
    (hV : Solid v) (hLeft : v.left ≤ left) (hTop : v.top ≤ top)
    (hRight : right ≤ v.right) (hBottom : bottom ≤ v.bottom)
    (q : Rect) (hMem : q ∈ strip left top right bottom) : Within v q := by
  have hSolid := strip_solid hV hLeft hTop hRight hBottom q hMem
  unfold strip at hMem
  split at hMem
  · rw [List.mem_singleton] at hMem
    subst hMem
    exact ⟨hSolid, hLeft, hRight, hTop, hBottom⟩
  · simp at hMem

/- Coordinates of rectangles in the canvas -/
theorem Within.spans (hV : Solid v)
    (hA : Within v a) (hB : Within v b) :
    (a.left < a.right ∧ b.left < b.right ∧
      a.top < a.bottom ∧ b.top < b.bottom) ∧
    (v.left ≤ min a.left b.left ∧ max a.right b.right ≤ v.right ∧
      v.top ≤ min a.top b.top ∧ max a.bottom b.bottom ≤ v.bottom) ∧
    v.right - v.left ≤ 2147483647 ∧ v.bottom - v.top ≤ 2147483647 := by
  have hWidth := hV.width_le
  have hHeight := hV.height_le
  rw [hV.width_eq] at hWidth
  rw [hV.height_eq] at hHeight
  unfold intMax at hWidth hHeight
  rcases hA with ⟨hA, hA₁, hA₂, hA₃, hA₄⟩
  rcases hB with ⟨hB, hB₁, hB₂, hB₃, hB₄⟩
  exact ⟨⟨hA.left_lt, hB.left_lt, hA.top_lt, hB.top_lt⟩, by omega, hWidth, hHeight⟩

/- Between two places of the canvas nothing overflows. -/
theorem wrap_of_span {lo hi x y : Int} (hSpan : hi - lo ≤ 2147483647)
    (hx : lo ≤ x ∧ x ≤ hi) (hy : lo ≤ y ∧ y ≤ hi) : wrap (y - x) = y - x :=
  wrap_of_inRange (by unfold CInt.InRange; omega)

theorem max_within {lo hi x y : Int} (hx : lo ≤ x) (hy : lo ≤ y)
    (hx' : x ≤ hi) (hy' : y ≤ hi) : lo ≤ max x y ∧ max x y ≤ hi := by
  omega

theorem min_within {lo hi x y : Int} (hx : lo ≤ x) (hy : lo ≤ y)
    (hx' : x ≤ hi) (hy' : y ≤ hi) : lo ≤ min x y ∧ min x y ≤ hi := by
  omega

theorem calcOuterRectArea_eq (hV : Solid v)
    (hA : Within v a) (hB : Within v b) :
    calcOuterRectArea a b = outerBox a b := by
  rcases Within.spans hV hA hB with ⟨⟨h₁, h₂, h₃, h₄⟩, ⟨h₅, h₆, h₇, h₈⟩, h₉, h₁₀⟩
  have hLeft : (if a.left < b.left then a.left else b.left) = min a.left b.left := by
    omega
  have hRight : (if a.right < b.right then b.right else a.right) = max a.right b.right := by
    omega
  have hTop : (if a.top < b.top then a.top else b.top) = min a.top b.top := by
    omega
  have hBottom : (if a.bottom < b.bottom then b.bottom else a.bottom) = max a.bottom b.bottom := by
    omega
  have hWidth : wrap (max a.right b.right - min a.left b.left) =
      max a.right b.right - min a.left b.left := wrap_of_inRange (by unfold CInt.InRange; omega)
  have hHeight :
      wrap (max a.bottom b.bottom - min a.top b.top) = max a.bottom b.bottom - min a.top b.top :=
    wrap_of_inRange (by unfold CInt.InRange; omega)
  unfold calcOuterRectArea outerBox
  dsimp only
  rw [hLeft, hRight, hTop, hBottom, hWidth, hHeight]

theorem outerBox_within (hV : Solid v)
    (hA : Within v a) (hB : Within v b) :
    Within v (outerBox a b) := by
  rcases Within.spans hV hA hB with
    ⟨⟨h₁, h₂, h₃, h₄⟩, ⟨h₅, h₆, h₇, h₈⟩, h₉, h₁₀⟩
  have hV₁ := hV.left_ge
  have hV₂ := hV.top_ge
  have hV₃ := hV.right_le
  have hV₄ := hV.bottom_le
  unfold intMax at hV₃ hV₄
  refine ⟨?_, h₅, h₆, h₇, h₈⟩
  unfold outerBox
  constructor
  case area_eq => rfl
  case width_eq => rfl
  case height_eq => rfl
  all_goals
    try unfold intMax
    dsimp only
    omega

end

---
-- The Tests of the Inner Loop
---

section

variable {v a b : Rect}
  (hV : Solid v) (hA : Within v a) (hB : Within v b)

include hV hA hB

theorem calcIntra_eq :
    (calcIntra a b).width =
        min a.right b.right - max a.left b.left ∧
      (calcIntra a b).height = min a.bottom b.bottom - max a.top b.top ∧
      (¬ Meets a b → (calcIntra a b).area = 0) := by
  rcases Within.spans hV hA hB with ⟨⟨h₁, h₂, h₃, h₄⟩, ⟨h₅, h₆, h₇, h₈⟩, h₉, h₁₀⟩
  have hLeft : (if a.left < b.left then b.left else a.left) = max a.left b.left := by
    omega
  have hRight : (if a.right < b.right then a.right else b.right) = min a.right b.right := by
    omega
  have hTop : (if a.top < b.top then b.top else a.top) = max a.top b.top := by
    omega
  have hBottom : (if a.bottom < b.bottom then a.bottom else b.bottom) = min a.bottom b.bottom := by
    omega
  have hWidth := wrap_of_span h₉ (max_within hA.left_ge hB.left_ge (h₁.le.trans hA.right_le)
    (h₂.le.trans hB.right_le)) (min_within (hA.left_ge.trans h₁.le) (hB.left_ge.trans h₂.le)
      hA.right_le hB.right_le)
  have hHeight := wrap_of_span h₁₀ (max_within hA.top_ge hB.top_ge (h₃.le.trans hA.bottom_le)
    (h₄.le.trans hB.bottom_le)) (min_within (hA.top_ge.trans h₃.le) (hB.top_ge.trans h₄.le)
      hA.bottom_le hB.bottom_le)
  unfold calcIntra
  dsimp only
  rw [hLeft, hRight, hTop, hBottom, hWidth, hHeight]
  refine ⟨rfl, rfl, ?_⟩
  intro hApart
  rw [if_neg]
  rintro ⟨hWide, hHigh⟩
  exact hApart ⟨by omega, by omega, by omega, by omega⟩

/- The tests for "contained" -/
theorem calcIntra_inside :
    ((calcIntra a b).width = a.width ∧
        (calcIntra a b).height = a.height ↔ Inside a b) ∧
      ((calcIntra a b).width = b.width ∧ (calcIntra a b).height = b.height ↔ Inside b a) := by
  rcases calcIntra_eq hV hA hB with ⟨hWidth, hHeight, -⟩
  have hA₁ := hA.solid.width_eq
  have hA₂ := hA.solid.height_eq
  have hB₁ := hB.solid.width_eq
  have hB₂ := hB.solid.height_eq
  rw [hWidth, hHeight]
  constructor
  · constructor
    · rintro ⟨hX, hY⟩
      constructor <;> omega
    · rintro ⟨h₁, h₂, h₃, h₄⟩
      omega
  · constructor
    · rintro ⟨hX, hY⟩
      constructor <;> omega
    · rintro ⟨h₁, h₂, h₃, h₄⟩
      omega

end

/- What `_split_fuzzy` leaves of `b` above and below `a` -/
def bands (a b : Rect) : List Rect :=
  strip b.left b.top b.right a.top ++
    strip b.left a.bottom b.right b.bottom

/- `_split_fuzzy` of two rectangles that meet -/
theorem splitFuzzy_eq {a b : Rect} (hA : Solid a) (hB : Solid b)
    (hMeets : Meets a b) (hOut : ¬ Inside b a) :
    (b.top ≤ a.top ∧ a.bottom ≤ b.bottom ∧ ∃ b', b'.height = a.height ∧
        splitFuzzy a b = (bands a b, b', .merge)) ∨
        ∃ b', splitFuzzy a b = (surround a b, b', .split) := by
  have hWraps := wrap_differences hA hB hMeets
  have hHeight := hA.height_eq
  have hSides := cutSides_eq hA hB hMeets
  unfold splitFuzzy
  simp only [cutAbove_eq hA hB hMeets, cutBelow_eq hA hB hMeets, hWraps.2.2.1, hWraps.2.2.2, hSides]
  split
  case isTrue hMerge =>
    left
    have h₁ := hMeets.top_lt
    have h₂ := hMeets.bottom_gt
    rcases hMerge with ⟨-, hEq⟩
    exact ⟨by omega, by omega, _, hEq.symm, rfl⟩
  case isFalse =>
    right
    have hSome : surround a b ≠ [] := by
      intro hNil
      apply hOut
      have hCovered := covered_surround hMeets
      rw [hNil] at hCovered
      have hFirst := hCovered (b.left, b.top)
      have hLast := hCovered (b.right - 1, b.bottom - 1)
      have h₁ := hB.left_lt
      have h₂ := hB.top_lt
      unfold Rect.Covers at hFirst hLast
      simp only [covered_nil, false_iff, not_and] at hFirst hLast
      constructor <;> omega
    change ∃ b', (surround a b, _,
      if (surround a b).isEmpty = true then _ else _) = _
    rw [if_neg (by rwa [List.isEmpty_iff])]
    exact ⟨_, rfl⟩

---
-- The Inner Loop
---

open List

/-
  The rectangle with which the inner loop replaces `r` by a
  bounding box, if it ends so
-/
def mergePartner (acceptedError : Int) (r : Rect) : List Rect → Option Rect
  | [] => none
  | current :: rects =>
    let intra := calcIntra r current
    let outer := calcOuterRectArea r current
    let area :=
      wrap (wrap (current.area + r.area) - intra.area)
    if intra.width = r.width ∧ intra.height = r.height then
      none
    else if intra.width = current.width ∧
        intra.height = current.height then
      mergePartner acceptedError r rects
    else if wrap (outer.area - area) ≤ acceptedError then
      some current
    else if intra.area ≤ acceptedError then
      mergePartner acceptedError r rects
    else
      none

/- The strip that is left of `r` and `current` side by side -/
def sideBySide (r current : Rect) : List Rect :=
  strip (min r.left current.left) current.top
    (max r.right current.right) current.bottom

/-
  How the inner loop ends.  The nodes `gone` have been removed
  because they are contained in `r`.
-/
inductive Outcome (acceptedError : Int) (r : Rect) (pre rects : List Rect) : Scan → Prop
  | keep {s gone : List Rect} {oldLast : Nat}
      (hPerm : (pre ++ rects).Perm (s ++ gone))
      (hGone : ∀ q ∈ gone, Inside q r) :
      Outcome acceptedError r pre rects
        ⟨s, oldLast, true, []⟩
  | inside {s gone : List Rect} {oldLast : Nat}
      {current : Rect}
      (hMem : current ∈ s)
      (hInside : Inside r current)
      (hPerm : (pre ++ rects).Perm (s ++ gone))
      (hGone : ∀ q ∈ gone, Inside q r) :
      Outcome acceptedError r pre rects
        ⟨s, oldLast, false, []⟩
  | merge {s gone : List Rect} {oldLast : Nat}
      {current : Rect}
      (hPartner :
        mergePartner acceptedError r rects = some current)
      (hPerm : (pre ++ rects).Perm (s ++ current :: gone))
      (hGone : ∀ q ∈ gone, Inside q r) :
      Outcome acceptedError r pre rects
        ⟨s, oldLast, false, [calcOuterRectArea r current]⟩
  | split {s gone : List Rect} {oldLast : Nat}
      {current : Rect}
      (hMem : current ∈ s)
      (hMeets : Meets current r)
      (hPerm : (pre ++ rects).Perm (s ++ gone))
      (hGone : ∀ q ∈ gone, Inside q r) :
      Outcome acceptedError r pre rects
        ⟨s, oldLast, false, surround current r⟩
  | side {s gone : List Rect} {oldLast : Nat}
      {current : Rect}
      (hMeets : Meets current r)
      (hTop : r.top ≤ current.top)
      (hBottom : current.bottom ≤ r.bottom)
      (hPerm : (pre ++ rects).Perm (s ++ current :: gone))
      (hGone : ∀ q ∈ gone, Inside q r) :
      Outcome acceptedError r pre rects
        ⟨s, oldLast, false,
          bands current r ++ sideBySide r current⟩

section

variable {v r current : Rect} {acceptedError : Int}
  {pre rects : List Rect}

/- The same end, with one more node that is removed -/
theorem Outcome.remove {s : Scan} (hInside : Inside current r)
    (hPartner : mergePartner acceptedError r rects =
      mergePartner acceptedError r (current :: rects))
    (hOutcome : Outcome acceptedError r pre rects s) :
    Outcome acceptedError r pre (current :: rects) s := by
  have hMove : (pre ++ current :: rects).Perm (current :: (pre ++ rects)) := perm_middle
  have hPerm : ∀ {l gone : List Rect},
      (pre ++ rects).Perm (l ++ gone) →
        (pre ++ current :: rects).Perm (l ++ current :: gone) :=
    fun h => (hMove.trans (h.cons current)).trans perm_middle.symm
  have hMore : ∀ {gone : List Rect}, (∀ q ∈ gone, Inside q r) →
        ∀ q ∈ current :: gone, Inside q r := fun h => forall_mem_cons.mpr ⟨hInside, h⟩
  cases hOutcome with
  | keep h hGone => exact .keep (hPerm h) (hMore hGone)
  | inside hMem hIn h hGone =>
    exact .inside hMem hIn (hPerm h) (hMore hGone)
  | @merge s gone oldLast q hQ h hGone =>
    have hSwap := (List.Perm.swap q current gone).append_left s
    exact .merge (hPartner ▸ hQ) ((hPerm h).trans hSwap) (hMore hGone)
  | split hMem hMeets h hGone =>
    exact .split hMem hMeets (hPerm h) (hMore hGone)
  | @side s gone oldLast q hMeets hTop hBottom h hGone =>
    have hSwap := (List.Perm.swap q current gone).append_left s
    exact .side hMeets hTop hBottom ((hPerm h).trans hSwap) (hMore hGone)

/- The same end, with one more node that is passed over -/
theorem Outcome.pass {s : Scan}
    (hPartner : mergePartner acceptedError r rects =
      mergePartner acceptedError r (current :: rects))
    (hOutcome : Outcome acceptedError r (pre ++ [current]) rects s) :
    Outcome acceptedError r pre (current :: rects) s := by
  have hEq : pre ++ [current] ++ rects = pre ++ current :: rects := by
    simp
  cases hOutcome with
  | keep h hGone => exact .keep (hEq ▸ h) hGone
  | inside hMem hIn h hGone => exact .inside hMem hIn (hEq ▸ h) hGone
  | merge hQ h hGone => exact .merge (hPartner ▸ hQ) (hEq ▸ h) hGone
  | split hMem hMeets h hGone =>
    exact .split hMem hMeets (hEq ▸ h) hGone
  | side hMeets hTop hBottom h hGone =>
    exact .side hMeets hTop hBottom (hEq ▸ h) hGone

/- No node is removed. -/
theorem perm_unchanged (pre rects : List Rect) : (pre ++ rects).Perm (pre ++ rects ++ []) := by
  rw [append_nil]

/- A node that is unlinked -/
theorem perm_unlink (pre rects : List Rect) :
    (pre ++ current :: rects).Perm (pre ++ rects ++ current :: []) :=
  perm_middle.trans (perm_append_singleton current (pre ++ rects)).symm

/- The branch "split is required" -/
theorem scanSplit_outcome (oldLast : Nat) (hV : Solid v)
    (hR : Within v r) (hCurrent : Within v current)
    (hMeets : Meets current r) (hOut : ¬ Inside r current) :
    ∃ s, scanSplit r current (calcOuterRectArea r current) pre
        rects oldLast = some s ∧
      Outcome acceptedError r pre (current :: rects) s := by
  unfold scanSplit
  rcases splitFuzzy_eq hCurrent.solid hR.solid hMeets hOut with
    ⟨hTop, hBottom, r', hHeight, hMerge⟩ | ⟨r', hSplit⟩
  · have hNode : [{ current with
          left := (calcOuterRectArea r current).left
          width := (calcOuterRectArea r current).width
          right := (calcOuterRectArea r current).right
          area := wrap ((calcOuterRectArea r current).width *
            r'.height) }] = sideBySide r current := by
      have hLeft := hCurrent.solid.left_lt
      have hTop := hCurrent.solid.top_lt
      rw [calcOuterRectArea_eq hV hR hCurrent, hHeight, hCurrent.solid.height_eq]
      unfold sideBySide strip outerBox
      rw [if_pos (by omega)]
    rw [hMerge]
    dsimp only
    rw [hNode]
    exact ⟨_, rfl, .side hMeets hTop hBottom (perm_unlink pre rects) (forall_mem_nil _)⟩
  · rw [hSplit]
    exact ⟨_, rfl, .split (mem_append_right _ mem_cons_self) hMeets
      (perm_unchanged pre _) (forall_mem_nil _)⟩

theorem scan_outcome (pre : List Rect) (oldLast : Nat) (hError : 0 ≤ acceptedError) (hV : Solid v)
    (hR : Within v r) (hRects : ∀ q ∈ rects, Within v q) :
    ∃ s, scan acceptedError r pre rects oldLast = some s ∧ Outcome acceptedError r pre rects s := by
  induction rects generalizing pre oldLast with
  | nil => exact ⟨_, rfl, .keep (List.Perm.refl _) (forall_mem_nil _)⟩
  | cons current rects ih =>
    rw [forall_mem_cons] at hRects
    rcases hRects with ⟨hCurrent, hRects⟩
    rcases calcIntra_inside hV hR hCurrent with ⟨hIn, hOver⟩
    unfold scan
    dsimp only
    split
    case isTrue hInside =>
      exact ⟨_, rfl, .inside (mem_append_right _ mem_cons_self)
        (hIn.mp hInside) (perm_unchanged pre _) (forall_mem_nil _)⟩
    case isFalse hNotIn =>
      split
      case isTrue hInside =>
        rcases ih pre (unlinkAt oldLast pre.length) hRects with ⟨s, hScan, hOutcome⟩
        refine ⟨s, hScan, hOutcome.remove (hOver.mp hInside) ?_⟩
        simp only [mergePartner]
        rw [if_neg hNotIn, if_pos hInside]
      case isFalse hNotOver =>
        split
        case isTrue hMerge =>
          have hPartner : mergePartner acceptedError r (current :: rects) = some current := by
            simp only [mergePartner]
            rw [if_neg hNotIn, if_neg hNotOver, if_pos hMerge]
          exact ⟨_, rfl, .merge hPartner (perm_unlink pre rects) (forall_mem_nil _)⟩
        case isFalse hNotMerge =>
          split
          case isTrue hPass =>
            rcases ih (pre ++ [current]) oldLast hRects with ⟨s, hScan, hOutcome⟩
            refine ⟨s, hScan, hOutcome.pass ?_⟩
            simp only [mergePartner]
            rw [if_neg hNotIn, if_neg hNotOver, if_neg hNotMerge, if_pos hPass]
          case isFalse hSplit =>
            refine scanSplit_outcome oldLast hV hR hCurrent ?_ (fun h => hNotIn (hIn.mpr h))
            by_contra hApart
            apply hSplit
            rw [(calcIntra_eq hV hR hCurrent).2.2 (fun h => hApart h.symm)]
            exact hError

end

---
-- What a Pass Makes
---

theorem strip_length (left top right bottom : Int) : (strip left top right bottom).length ≤ 1 := by
  unfold strip
  split <;> simp

theorem surround_length (a b : Rect) : (surround a b).length ≤ 4 := by
  have h₁ := strip_length b.left b.top b.right a.top
  have h₂ := strip_length b.left a.bottom b.right b.bottom
  have h₃ := strip_length b.left (max a.top b.top) a.left (min a.bottom b.bottom)
  have h₄ := strip_length a.right (max a.top b.top) b.right (min a.bottom b.bottom)
  unfold surround
  simp only [length_append]
  omega

section

variable {v : Rect}

/- The bounding box of two rectangles, as a pass uses it -/
theorem outer_within {a b : Rect} (hV : Solid v)
    (hA : Within v a) (hB : Within v b) :
    Within v (calcOuterRectArea a b) ∧
      ∀ p, a.Covers p ∨ b.Covers p → (calcOuterRectArea a b).Covers p := by
  rw [calcOuterRectArea_eq hV hA hB]
  refine ⟨outerBox_within hV hA hB, ?_⟩
  intro p hp
  unfold Rect.Covers at hp ⊢
  unfold outerBox
  dsimp only
  omega

theorem covered_sideBySide {a b : Rect} (hTop : b.top ≤ a.top) (hMeets : Meets a b) (p : Pixel)
    (hCovers : b.Covers p ∨ a.Covers p) : Covered (bands a b ++ sideBySide b a) p := by
  rcases hMeets with ⟨m₁, m₂, m₃, m₄⟩
  unfold bands sideBySide
  unfold Rect.Covers at hCovers
  simp only [covered_append, covered_strip, min_le_iff, lt_max_iff]
  omega

theorem sideBySide_within {a b : Rect} (hV : Solid v)
    (hA : Within v a) (hB : Within v b) :
    (∀ q ∈ bands a b ++ sideBySide b a, Within v q) ∧ (bands a b ++ sideBySide b a).length ≤ 3 := by
  rcases Within.spans hV hA hB with ⟨⟨h₁, h₂, h₃, h₄⟩, ⟨h₅, h₆, h₇, h₈⟩, -, -⟩
  constructor
  · intro q hMem
    unfold bands sideBySide at hMem
    simp only [mem_append] at hMem
    rcases hMem with (hMem | hMem) | hMem <;> refine strip_within hV ?_ ?_ ?_ ?_ q hMem <;> omega
  · unfold bands sideBySide
    simp only [length_append]
    have hAbove := strip_length b.left b.top b.right a.top
    have hBelow := strip_length b.left a.bottom b.right b.bottom
    have hSide := strip_length (min b.left a.left) a.top (max b.right a.right) a.bottom
    omega

theorem surround_within {a b : Rect} (hV : Solid v)
    (hA : Within v a) (hB : Within v b) (hMeets : Meets a b)
    (q : Rect) (hMem : q ∈ surround a b) : Within v q := by
  rcases Within.spans hV hA hB with ⟨⟨h₁, h₂, h₃, h₄⟩, ⟨h₅, h₆, h₇, h₈⟩, -, -⟩
  rcases hMeets with ⟨m₁, m₂, m₃, m₄⟩
  unfold surround at hMem
  simp only [mem_append] at hMem
  rcases hMem with (hMem | hMem) | hMem | hMem <;>
    refine strip_within hV ?_ ?_ ?_ ?_ q hMem <;> omega

end

end Efl.Eina.Tiler
