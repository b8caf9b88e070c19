import Efl.Eina.Tiler.Model

/-
  The splitter loses no cell.

  Whatever the areas and the accepted error are, splitting
  and merging only replaces rectangles by ones that cover the
  same cells or more.  The coordinates stay in a box in which
  no sum or difference leaves the range of an `int`.

  Main declarations:
    * `Tiler.Rect.Covers`
    * `Tiler.Covered`
    * `Tiler.covered_delSplitStrict`
    * `Tiler.covered_addSplitFuzzyAndMerge`
-/

---
-- Cells
---

namespace Efl.Eina.Tiler

open CInt List

/- The cell lies in the rectangle. -/
def Rect.Covers (r : Rect) (p : Pixel) : Prop :=
  r.left ≤ p.1 ∧ p.1 < r.right ∧
    r.top ≤ p.2 ∧ p.2 < r.bottom

/- The cell lies in one of the rectangles. -/
def Covered (rects : List Rect) (p : Pixel) : Prop :=
  ∃ r ∈ rects, r.Covers p

@[simp] theorem covered_nil (p : Pixel) : ¬ Covered [] p := by
  simp [Covered]

variable {rects : List Rect}

@[simp] theorem covered_cons {r : Rect} {p : Pixel} :
    Covered (r :: rects) p ↔ r.Covers p ∨ Covered rects p := by
  simp [Covered]

@[simp] theorem covered_append {others : List Rect} {p : Pixel} :
    Covered (rects ++ others) p ↔ Covered rects p ∨ Covered others p := by
  simp only [Covered, mem_append]
  constructor
  · rintro ⟨r, hMem | hMem, hCovers⟩
    · exact Or.inl ⟨r, hMem, hCovers⟩
    · exact Or.inr ⟨r, hMem, hCovers⟩
  · rintro (⟨r, hMem, hCovers⟩ | ⟨r, hMem, hCovers⟩)
    · exact ⟨r, Or.inl hMem, hCovers⟩
    · exact ⟨r, Or.inr hMem, hCovers⟩

/-
  Both ends of the rectangle lie in the box of `cols` times
  `rows` cells, and its size fits its ends.  The size may be
  negative.
-/
structure InBox (cols rows : Int) (r : Rect) : Prop where
  left_nonneg : 0 ≤ r.left
  left_le : r.left ≤ cols
  right_nonneg : 0 ≤ r.right
  right_le : r.right ≤ cols
  top_nonneg : 0 ≤ r.top
  top_le : r.top ≤ rows
  bottom_nonneg : 0 ≤ r.bottom
  bottom_le : r.bottom ≤ rows
  width_eq : r.width = r.right - r.left
  height_eq : r.height = r.bottom - r.top

/- All rectangles of a list lie in the box. -/
def AllInBox (cols rows : Int) (rects : List Rect) : Prop :=
  ∀ r ∈ rects, InBox cols rows r

variable {cols rows : Int}

@[simp] theorem allInBox_nil : AllInBox cols rows [] := by
  simp [AllInBox]

@[simp] theorem allInBox_cons {r : Rect} :
    AllInBox cols rows (r :: rects) ↔ InBox cols rows r ∧ AllInBox cols rows rects := by
  simp [AllInBox]

@[simp] theorem allInBox_append {others : List Rect} :
    AllInBox cols rows (rects ++ others) ↔
      AllInBox cols rows rects ∧ AllInBox cols rows others := by
  simp [AllInBox, or_imp, forall_and]

/- A larger box. -/
theorem InBox.mono {cols' rows' : Int} {r : Rect}
    (hBox : InBox cols rows r) (hX : cols ≤ cols') (hY : rows ≤ rows') : InBox cols' rows' r := by
  rcases hBox with ⟨h₁, h₂, h₃, h₄, h₅, h₆, h₇, h₈, h₉, h₁₀⟩
  constructor <;> omega

theorem AllInBox.mono {cols' rows' : Int} (hBox : AllInBox cols rows rects) (hX : cols ≤ cols')
    (hY : rows ≤ rows') : AllInBox cols' rows' rects := fun r hMem => (hBox r hMem).mono hX hY

/- Differences in a box do not wrap. -/
theorem wrap_sub {a b m : Int} (hMax : m ≤ intMax)
    (hA : 0 ≤ a) (hA' : a ≤ m) (hB : 0 ≤ b) (hB' : b ≤ m) : wrap (a - b) = a - b := by
  unfold intMax at hMax
  apply wrap_of_inRange
  unfold CInt.InRange
  omega

/- A rectangle that is initialised with both ends in the box. -/
theorem rectInit_inBox {x y w h : Int} (hCols : cols ≤ intMax)
    (hRows : rows ≤ intMax) (hX : 0 ≤ x) (hX' : x ≤ cols)
    (hW : 0 ≤ x + w) (hW' : x + w ≤ cols) (hY : 0 ≤ y)
    (hY' : y ≤ rows) (hH : 0 ≤ y + h) (hH' : y + h ≤ rows) :
    InBox cols rows (rectInit x y w h) ∧
      (rectInit x y w h).right = x + w ∧ (rectInit x y w h).bottom = y + h := by
  unfold intMax at hCols hRows
  have hRight : wrap (x + w) = x + w := by
    apply wrap_of_inRange
    unfold CInt.InRange
    omega
  have hBottom : wrap (y + h) = y + h := by
    apply wrap_of_inRange
    unfold CInt.InRange
    omega
  refine ⟨?_, hRight, hBottom⟩
  unfold rectInit
  rw [hRight, hBottom]
  constructor <;> dsimp only <;> omega

---
-- Splitting
---

section

variable {cols rows : Int}
  (hCols : cols ≤ intMax) (hRows : rows ≤ intMax)

include hRows

/-
  The part of `b` between the top and the bottom of `a`, as
  the cuts leave it: they do not touch `right` and `bottom`.
-/
structure Cut (a b r : Rect) (low high : Int) : Prop where
  left_eq : r.left = b.left
  right_eq : r.right = b.right
  width_eq : r.width = b.width
  bottom_eq : r.bottom = b.bottom
  top_eq : r.top = low
  height_eq : r.height = high - low

include hCols

theorem cutAbove_spec {a b : Rect} (hA : InBox cols rows a)
    (hB : InBox cols rows b) :
    AllInBox cols rows (cutAbove a b).1 ∧
      Cut a b (cutAbove a b).2 (max a.top b.top) b.bottom ∧
      (∀ p, b.Covers p → p.2 < max a.top b.top →
        Covered (cutAbove a b).1 p) ∧
      ((cutAbove a b).1 = [] → a.top ≤ b.top) := by
  rcases hA with ⟨a₁, a₂, a₃, a₄, a₅, a₆, a₇, a₈, a₉, a₁₀⟩
  rcases hB with ⟨b₁, b₂, b₃, b₄, b₅, b₆, b₇, b₈, b₉, b₁₀⟩
  have hDiff : wrap (a.top - b.top) = a.top - b.top := wrap_sub hRows a₅ a₆ b₅ b₆
  unfold cutAbove
  simp only [hDiff]
  split
  · rcases rectInit_inBox hCols hRows (x := b.left) (y := b.top)
        (w := b.width) (h := a.top - b.top) b₁ b₂ (by omega)
        (by omega) b₅ b₆ (by omega) (by omega) with ⟨hBox, hRight, hBottom⟩
    have hRest : wrap (b.height - (a.top - b.top)) = b.bottom - a.top := by
      rw [show b.height - (a.top - b.top) = b.bottom - a.top by omega]
      exact wrap_sub hRows b₇ b₈ a₅ a₆
    refine ⟨by simpa using hBox, ⟨rfl, rfl, rfl, rfl, ?_, ?_⟩, ?_, by simp⟩
    · dsimp only
      omega
    · dsimp only
      omega
    · intro p hp hLow
      rw [covered_cons]
      left
      unfold Rect.Covers at hp ⊢
      rw [hRight, hBottom]
      simp only [rectInit]
      omega
  · refine ⟨by simp, ⟨rfl, rfl, rfl, rfl, ?_, ?_⟩, ?_, ?_⟩
    · dsimp only
      omega
    · dsimp only
      omega
    · intro p hp hLow
      unfold Rect.Covers at hp
      omega
    · intro _
      omega

theorem cutBelow_spec {a b r : Rect} (hA : InBox cols rows a) (hB : InBox cols rows b)
    (hCut : Cut a b r (max a.top b.top) b.bottom) :
    AllInBox cols rows (cutBelow a r).1 ∧ Cut a b (cutBelow a r).2 (max a.top b.top)
      (min a.bottom b.bottom) ∧
      (∀ p, b.Covers p → min a.bottom b.bottom ≤ p.2 →
        Covered (cutBelow a r).1 p) ∧
      ((cutBelow a r).1 = [] → b.bottom ≤ a.bottom) := by
  rcases hA with ⟨a₁, a₂, a₃, a₄, a₅, a₆, a₇, a₈, a₉, a₁₀⟩
  rcases hB with ⟨b₁, b₂, b₃, b₄, b₅, b₆, b₇, b₈, b₉, b₁₀⟩
  rcases hCut with ⟨r₁, r₂, r₃, r₄, r₅, r₆⟩
  have hDiff : wrap (r.bottom - a.bottom) = b.bottom - a.bottom := by
    rw [r₄]
    exact wrap_sub hRows b₇ b₈ a₇ a₈
  unfold cutBelow
  simp only [hDiff]
  split
  · rcases rectInit_inBox hCols hRows (x := b.left) (y := a.bottom)
        (w := b.width) (h := b.bottom - a.bottom) b₁ b₂ (by omega)
        (by omega) a₇ a₈ (by omega) (by omega) with ⟨hBox, hRight, hBottom⟩
    rw [← r₁, ← r₃] at hBox hRight hBottom
    have hRest : wrap (r.height - (b.bottom - a.bottom)) = a.bottom - max a.top b.top := by
      rw [show r.height - (b.bottom - a.bottom) =
        a.bottom - max a.top b.top by omega]
      exact wrap_sub hRows a₇ a₈ (by omega) (by omega)
    refine ⟨by simpa using hBox, ⟨r₁, r₂, r₃, r₄, r₅, ?_⟩, ?_, by simp⟩
    · dsimp only
      omega
    · intro p hp hLow
      rw [covered_cons]
      left
      unfold Rect.Covers at hp ⊢
      rw [hRight, hBottom]
      simp only [rectInit]
      omega
  · refine ⟨by simp, ⟨r₁, r₂, r₃, r₄, r₅, ?_⟩, ?_, ?_⟩
    · dsimp only
      omega
    · intro p hp hLow
      unfold Rect.Covers at hp
      omega
    · intro _
      omega

theorem cutSides_spec {a b r : Rect} (hA : InBox cols rows a)
    (hB : InBox cols rows b) (hCut : Cut a b r (max a.top b.top)
      (min a.bottom b.bottom)) :
    AllInBox cols rows (cutSides a r) ∧
      (∀ p, b.Covers p →
        max a.top b.top ≤ p.2 → p.2 < min a.bottom b.bottom →
        a.Covers p ∨ Covered (cutSides a r) p) ∧
      (cutSides a r = [] → a.left ≤ b.left ∧ b.right ≤ a.right) := by
  rcases hA with ⟨a₁, a₂, a₃, a₄, a₅, a₆, a₇, a₈, a₉, a₁₀⟩
  rcases hB with ⟨b₁, b₂, b₃, b₄, b₅, b₆, b₇, b₈, b₉, b₁₀⟩
  rcases hCut with ⟨r₁, r₂, r₃, r₄, r₅, r₆⟩
  have hLeft : wrap (a.left - r.left) = a.left - b.left := by
    rw [r₁]
    exact wrap_sub hCols a₁ a₂ b₁ b₂
  have hRight : wrap (r.right - a.right) = b.right - a.right := by
    rw [r₂]
    exact wrap_sub hCols b₃ b₄ a₃ a₄
  rcases rectInit_inBox hCols hRows (x := r.left) (y := r.top)
      (w := a.left - b.left) (h := r.height) (by omega)
      (by omega) (by omega) (by omega) (by omega) (by omega)
      (by omega) (by omega) with ⟨hBox₁, hEnd₁, hLow₁⟩
  rcases rectInit_inBox hCols hRows (x := a.right) (y := r.top)
      (w := b.right - a.right) (h := r.height) (by omega)
      (by omega) (by omega) (by omega) (by omega) (by omega)
      (by omega) (by omega) with ⟨hBox₂, hEnd₂, hLow₂⟩
  unfold cutSides
  simp only [hLeft, hRight]
  refine ⟨?_, ?_, ?_⟩
  · rw [allInBox_append]
    constructor <;> split <;> simp [hBox₁, hBox₂]
  · intro p hp hHigh hLow
    unfold Rect.Covers at hp
    by_cases hBefore : p.1 < a.left
    · right
      rw [covered_append, if_pos (by omega), covered_cons]
      left
      left
      unfold Rect.Covers
      rw [hEnd₁, hLow₁]
      simp only [rectInit]
      omega
    · by_cases hAfter : a.right ≤ p.1
      · right
        rw [covered_append, if_pos (show 0 < b.right - a.right by omega), covered_cons]
        right
        left
        unfold Rect.Covers
        rw [hEnd₂, hLow₂]
        simp only [rectInit]
        omega
      · left
        unfold Rect.Covers
        omega
  · intro hNil
    rw [append_eq_nil_iff] at hNil
    rcases hNil with ⟨hNil₁, hNil₂⟩
    split at hNil₁
    · simp at hNil₁
    · split at hNil₂
      · simp at hNil₂
      · omega

/- What lies outside `a` is cut off `b`. -/
theorem splitStrict_spec {a b : Rect} (hA : InBox cols rows a)
    (hB : InBox cols rows b) :
    AllInBox cols rows (splitStrict a b) ∧
      ∀ p, b.Covers p → a.Covers p ∨ Covered (splitStrict a b) p := by
  rcases cutAbove_spec hCols hRows hA hB with ⟨hBox₁, hCut₁, hCover₁, -⟩
  rcases cutBelow_spec hCols hRows hA hB hCut₁ with ⟨hBox₂, hCut₂, hCover₂, -⟩
  rcases cutSides_spec hCols hRows hA hB hCut₂ with ⟨hBox₃, hCover₃, -⟩
  unfold splitStrict
  dsimp only
  refine ⟨by simp [hBox₁, hBox₂, hBox₃], ?_⟩
  intro p hp
  simp only [covered_append]
  by_cases hHigh : p.2 < max a.top b.top
  · exact Or.inr (Or.inl (Or.inl (hCover₁ p hp hHigh)))
  · by_cases hLow : min a.bottom b.bottom ≤ p.2
    · exact Or.inr (Or.inl (Or.inr (hCover₂ p hp hLow)))
    · rcases hCover₃ p hp (by omega) (by omega) with h | h
      · exact Or.inl h
      · exact Or.inr (Or.inr h)

/- The bounding box of two rectangles. -/
theorem calcOuterRectArea_spec {a b : Rect}
    (hA : InBox cols rows a) (hB : InBox cols rows b) :
    InBox cols rows (calcOuterRectArea a b) ∧
      (calcOuterRectArea a b).left = min a.left b.left ∧
      (calcOuterRectArea a b).right = max a.right b.right ∧
      ∀ p, a.Covers p ∨ b.Covers p → (calcOuterRectArea a b).Covers p := by
  rcases hA with ⟨a₁, a₂, a₃, a₄, a₅, a₆, a₇, a₈, a₉, a₁₀⟩
  rcases hB with ⟨b₁, b₂, b₃, b₄, b₅, b₆, b₇, b₈, b₉, b₁₀⟩
  have hLeft : (calcOuterRectArea a b).left = min a.left b.left := by
    simp only [calcOuterRectArea]
    omega
  have hRight : (calcOuterRectArea a b).right = max a.right b.right := by
    simp only [calcOuterRectArea]
    omega
  have hTop : (calcOuterRectArea a b).top = min a.top b.top := by
    simp only [calcOuterRectArea]
    omega
  have hBottom : (calcOuterRectArea a b).bottom = max a.bottom b.bottom := by
    simp only [calcOuterRectArea]
    omega
  have hWidth : (calcOuterRectArea a b).width =
      (calcOuterRectArea a b).right - (calcOuterRectArea a b).left :=
    wrap_sub hCols (by omega) (by omega) (by omega) (by omega)
  have hHeight : (calcOuterRectArea a b).height =
      (calcOuterRectArea a b).bottom - (calcOuterRectArea a b).top :=
    wrap_sub hRows (by omega) (by omega) (by omega) (by omega)
  refine ⟨?_, hLeft, hRight, ?_⟩
  · constructor <;> omega
  · intro p hp
    unfold Rect.Covers at hp ⊢
    omega

/- The size of an intersection, also of its `rect_t`. -/
theorem calcIntra_spec {a b : Rect} (hA : InBox cols rows a)
    (hB : InBox cols rows b) :
    (calcIntra a b).width = min a.right b.right - max a.left b.left ∧
        (calcIntra a b).height = min a.bottom b.bottom - max a.top b.top := by
  rcases hA with ⟨a₁, a₂, a₃, a₄, a₅, a₆, a₇, a₈, a₉, a₁₀⟩
  rcases hB with ⟨b₁, b₂, b₃, b₄, b₅, b₆, b₇, b₈, b₉, b₁₀⟩
  constructor
  · have hWrap := wrap_sub hCols (a := min a.right b.right) (b :=
      max a.left b.left) (by omega) (by omega) (by omega) (by omega)
    rw [← hWrap]
    simp only [calcIntra]
    congr 1
    omega
  · have hWrap := wrap_sub hRows (a := min a.bottom b.bottom) (b :=
      max a.top b.top) (by omega) (by omega) (by omega) (by omega)
    rw [← hWrap]
    simp only [calcIntra]
    congr 1
    omega

theorem calcIntraRectArea_spec {a b : Rect}
    (hA : InBox cols rows a) (hB : InBox cols rows b) :
    calcIntraRectArea a b =
      (min a.right b.right - max a.left b.left, min a.bottom b.bottom - max a.top b.top) := by
  rcases calcIntra_spec hCols hRows hA hB with ⟨hWidth, hHeight⟩
  rw [← hWidth, ← hHeight]
  rfl

/-
  A rectangle that is not contained in `a` is cut, or merged
  with `a` to both sides.
-/
theorem splitFuzzy_cases {a b : Rect} (hA : InBox cols rows a) (hB : InBox cols rows b)
    (hOut : ¬ ((calcIntra b a).width = b.width ∧
      (calcIntra b a).height = b.height)) :
    ∃ dirty r,
      AllInBox cols rows dirty ∧
      ((splitFuzzy a b = (dirty, r, .split) ∧
        ∀ p, b.Covers p → a.Covers p ∨ Covered dirty p) ∨
      (splitFuzzy a b = (dirty, r, .merge) ∧ ∀ p, b.Covers p →
        Covered dirty p ∨ (a.top ≤ p.2 ∧ p.2 < a.bottom))) := by
  rcases cutAbove_spec hCols hRows hA hB with ⟨hBox₁, hCut₁, hCover₁, hNil₁⟩
  rcases cutBelow_spec hCols hRows hA hB hCut₁ with ⟨hBox₂, hCut₂, hCover₂, hNil₂⟩
  rcases cutSides_spec hCols hRows hA hB hCut₂ with ⟨hBox₃, hCover₃, hNil₃⟩
  unfold splitFuzzy
  dsimp only
  split
  · refine ⟨(cutAbove a b).1 ++ (cutBelow a (cutAbove a b).2).1,
      (cutBelow a (cutAbove a b).2).2, by simp [hBox₁, hBox₂], Or.inr ⟨rfl, ?_⟩⟩
    intro p hp
    rw [covered_append]
    by_cases hHigh : p.2 < max a.top b.top
    · exact Or.inl (Or.inl (hCover₁ p hp hHigh))
    · by_cases hLow : min a.bottom b.bottom ≤ p.2
      · exact Or.inl (Or.inr (hCover₂ p hp hLow))
      · right
        omega
  · refine ⟨(cutAbove a b).1 ++ (cutBelow a (cutAbove a b).2).1 ++
      cutSides a (cutBelow a (cutAbove a b).2).2, (cutBelow a (cutAbove a b).2).2,
      by simp [hBox₁, hBox₂, hBox₃], Or.inl ⟨?_, ?_⟩⟩
    · -- Without a cut `b` would be contained in `a`.
      rw [if_neg]
      intro hEmpty
      rw [List.isEmpty_iff, append_eq_nil_iff, append_eq_nil_iff] at hEmpty
      rcases hEmpty with ⟨⟨hAbove, hBelow⟩, hSides⟩
      have hTop := hNil₁ hAbove
      have hBottom := hNil₂ hBelow
      have hLeft := hNil₃ hSides
      rcases calcIntra_spec hCols hRows hB hA with ⟨hWidth, hHeight⟩
      have hb₁ := hB.width_eq
      have hb₂ := hB.height_eq
      apply hOut
      omega
    · intro p hp
      simp only [covered_append]
      by_cases hHigh : p.2 < max a.top b.top
      · exact Or.inr (Or.inl (Or.inl (hCover₁ p hp hHigh)))
      · by_cases hLow : min a.bottom b.bottom ≤ p.2
        · exact Or.inr (Or.inl (Or.inr (hCover₂ p hp hLow)))
        · rcases hCover₃ p hp (by omega) (by omega) with h | h
          · exact Or.inl h
          · exact Or.inr (Or.inr h)

end

---
-- The Lists of the Splitter
---

open Option

section

variable {cols rows : Int}
  (hCols : cols ≤ intMax) (hRows : rows ≤ intMax)

include hCols hRows

/-
  A rectangle that is cut off at the ends of the box: it
  splits the rectangles in the box in the same way.
-/
def Rect.clamp (cols rows : Int) (a : Rect) : Rect where
  left := min a.left cols
  right := min a.right cols
  width := min a.right cols - min a.left cols
  top := min a.top rows
  bottom := min a.bottom rows
  height := min a.bottom rows - min a.top rows
  area := a.area

theorem splitStrict_clamp {a b : Rect} (hA : InBox intMax intMax a) (hB : InBox cols rows b)
    (hLeft : a.left < b.right) (hTop : a.top < b.bottom) :
    splitStrict (a.clamp cols rows) b = splitStrict a b := by
  rcases hA with ⟨a₁, a₂, a₃, a₄, a₅, a₆, a₇, a₈, a₉, a₁₀⟩
  rcases hB with ⟨b₁, b₂, b₃, b₄, b₅, b₆, b₇, b₈, b₉, b₁₀⟩
  have hAbove : cutAbove (a.clamp cols rows) b = cutAbove a b := by
    unfold cutAbove Rect.clamp
    rw [Int.min_eq_left (a := a.top) (by omega)]
  have hBelow : ∀ r : Rect, r.bottom = b.bottom →
      cutBelow (a.clamp cols rows) r = cutBelow a r := by
    intro r hr
    unfold cutBelow Rect.clamp
    dsimp only
    rw [hr]
    by_cases hIn : a.bottom ≤ rows
    · rw [Int.min_eq_left hIn]
    · rw [Int.min_eq_right (by omega), wrap_sub hRows b₇ b₈ (by omega) (by omega),
        wrap_sub (Int.le_refl _) b₇ (by omega) a₇ a₈, if_neg (by omega), if_neg (by omega)]
  have hSides : ∀ r : Rect, r.right = b.right → cutSides (a.clamp cols rows) r = cutSides a r := by
    intro r hr
    unfold cutSides Rect.clamp
    dsimp only
    rw [hr, Int.min_eq_left (a := a.left) (by omega)]
    by_cases hIn : a.right ≤ cols
    · rw [Int.min_eq_left hIn]
    · rw [Int.min_eq_right (by omega), wrap_sub hCols b₃ b₄ (by omega) (by omega),
        wrap_sub (Int.le_refl _) b₃ (by omega) a₃ a₄, if_neg (show ¬ 0 < b.right - cols by omega),
        if_neg (show ¬ 0 < b.right - a.right by omega)]
  -- The cuts above and below leave `right` as it is.
  have hBottom : (cutAbove a b).2.bottom = b.bottom := by
    unfold cutAbove
    dsimp only
    split <;> rfl
  have hRight : (cutBelow a (cutAbove a b).2).2.right = b.right := by
    unfold cutBelow cutAbove
    dsimp only
    split <;> split <;> rfl
  unfold splitStrict
  simp only [hAbove, hBelow _ hBottom, hSides _ hRight]

/- A deletion keeps every cell outside the deleted one. -/
theorem covered_delSplitStrict {rects : List Rect} {delR : Rect} (hDel : InBox intMax intMax delR)
    (hBox : AllInBox cols rows rects) :
    AllInBox cols rows (delSplitStrict rects delR) ∧
      ∀ p, Covered rects p → delR.Covers p ∨ Covered (delSplitStrict rects delR) p := by
  have hLoop :
      AllInBox cols rows (delSplitStrictLoop delR rects).1 ∧
      AllInBox cols rows (delSplitStrictLoop delR rects).2 ∧
      ∀ p, Covered rects p → delR.Covers p ∨
          Covered (delSplitStrictLoop delR rects).1 p ∨
          Covered (delSplitStrictLoop delR rects).2 p := by
    induction rects with
    | nil => simp [delSplitStrictLoop]
    | cons current rects ih =>
      rw [allInBox_cons] at hBox
      rcases hBox with ⟨hCurrent, hRest⟩
      rcases ih hRest with ⟨hKept, hModified, hCover⟩
      unfold delSplitStrictLoop
      rw [calcIntraRectArea_spec (Int.le_refl _) (Int.le_refl _) hDel (hCurrent.mono hCols hRows)]
      dsimp only
      split
      · refine ⟨by simp [hCurrent, hKept], hModified, ?_⟩
        intro p hp
        rw [covered_cons] at hp ⊢
        rcases hp with hp | hp
        · exact Or.inr (Or.inl (Or.inl hp))
        · rcases hCover p hp with h | h | h
          · exact Or.inl h
          · exact Or.inr (Or.inl (Or.inr h))
          · exact Or.inr (Or.inr h)
      · rename_i hMeet
        split
        · rename_i hIn
          refine ⟨hKept, hModified, ?_⟩
          intro p hp
          rw [covered_cons] at hp
          rcases hp with hp | hp
          · left
            have hWidth := hCurrent.width_eq
            have hHeight := hCurrent.height_eq
            unfold Rect.Covers at hp ⊢
            omega
          · exact hCover p hp
        · have hClamp : InBox cols rows (delR.clamp cols rows) := by
            have hSize := hCurrent.left_nonneg
            have hSize' := hCurrent.top_nonneg
            have hEnd := hCurrent.left_le
            have hEnd' := hCurrent.top_le
            rcases hDel with ⟨a₁, a₂, a₃, a₄, a₅, a₆, a₇, a₈, -, -⟩
            unfold Rect.clamp
            constructor <;> dsimp only <;> omega
          rcases splitStrict_spec hCols hRows hClamp hCurrent with ⟨hPieces, hSplit⟩
          rw [splitStrict_clamp hCols hRows hDel hCurrent (by omega) (by omega)] at hPieces hSplit
          refine ⟨hKept, by simp [hPieces, hModified], ?_⟩
          intro p hp
          rw [covered_cons] at hp
          rw [covered_append]
          rcases hp with hp | hp
          · rcases hSplit p hp with h | h
            · left
              simp only [Rect.Covers, Rect.clamp] at h hp ⊢
              omega
            · exact Or.inr (Or.inr (Or.inl h))
          · rcases hCover p hp with h | h | h
            · exact Or.inl h
            · exact Or.inr (Or.inl h)
            · exact Or.inr (Or.inr (Or.inr h))
  rcases hLoop with ⟨hKept, hModified, hCover⟩
  unfold delSplitStrict
  exact ⟨by simp [hKept, hModified], fun p hp => by
    simpa using hCover p hp⟩

/-
  What a pass of the inner loop keeps: the cells of the new
  rectangle `r` and of the list.
-/
structure Keeps (cols rows : Int) (r : Rect) (rects : List Rect) (s : Scan) : Prop where
  rects_inBox : AllInBox cols rows s.rects
  dirty_inBox : AllInBox cols rows s.dirty
  covered_r : ∀ p, r.Covers p →
    s.keepDirty = true ∨ Covered s.rects p ∨ Covered s.dirty p
  covered_rects : ∀ p, Covered rects p →
    (s.keepDirty = true ∧ r.Covers p) ∨
      Covered s.rects p ∨ Covered s.dirty p

/- The branch that splits does not abort. -/
theorem scanSplit_keeps {r current : Rect} {pre rects : List Rect} {oldLast : Nat}
    (hR : InBox cols rows r) (hCurrent : InBox cols rows current)
    (hPre : AllInBox cols rows pre) (hRest : AllInBox cols rows rects)
    (hOut : ¬ ((calcIntra r current).width = r.width ∧
      (calcIntra r current).height = r.height)) :
    ∃ s, scanSplit r current (calcOuterRectArea r current)
          pre rects oldLast = some s ∧
      Keeps cols rows r (pre ++ current :: rects) s := by
  rcases calcOuterRectArea_spec hCols hRows hR hCurrent with ⟨hOuterBox, hOuterLeft, hOuterRight, -⟩
  unfold scanSplit
  rcases splitFuzzy_cases hCols hRows hCurrent hR hOut with
    ⟨dirty, r', hDirty, ⟨hSplit, hCover⟩ | ⟨hMerge, hCover⟩⟩
  · rw [hSplit]
    refine ⟨_, rfl, by simp [hPre, hCurrent, hRest], hDirty, ?_, ?_⟩
    · intro p hp
      right
      rcases hCover p hp with h | h
      · exact Or.inl ⟨current, by simp, h⟩
      · exact Or.inr h
    · intro p hp
      exact Or.inr (Or.inl hp)
  · rw [hMerge]
    -- Both are replaced by a strip as high as the current one.
    have hStrip : ∀ p, r.Covers p ∨ current.Covers p →
        current.top ≤ p.2 ∧ p.2 < current.bottom →
        Rect.Covers
          { current with
            left := (calcOuterRectArea r current).left
            width := (calcOuterRectArea r current).width
            right := (calcOuterRectArea r current).right
            area := wrap ((calcOuterRectArea r current).width *
                r'.height) } p := by
      intro p hp hBand
      unfold Rect.Covers at hp ⊢
      dsimp only
      omega
    refine ⟨_, rfl, by simp [hPre, hRest], ?_, ?_, ?_⟩
    · rw [allInBox_append, allInBox_cons]
      refine ⟨hDirty, ?_, by simp⟩
      rcases hCurrent with ⟨c₁, c₂, c₃, c₄, c₅, c₆, c₇, c₈, c₉, c₁₀⟩
      rcases hOuterBox with ⟨o₁, o₂, o₃, o₄, -, -, -, -, o₅, -⟩
      exact ⟨o₁, o₂, o₃, o₄, c₅, c₆, c₇, c₈, o₅, c₁₀⟩
    · intro p hp
      right
      right
      rw [covered_append]
      rcases hCover p hp with h | h
      · exact Or.inl h
      · exact Or.inr ⟨_, by simp, hStrip p (Or.inl hp) h⟩
    · intro p hp
      right
      rw [covered_append, covered_cons] at hp
      rcases hp with hp | hp | hp
      · exact Or.inl (covered_append.mpr (Or.inl hp))
      · right
        rw [covered_append]
        exact Or.inr ⟨_, by simp, hStrip p (Or.inr hp) ⟨hp.2.2.1, hp.2.2.2⟩⟩
      · exact Or.inl (covered_append.mpr (Or.inr hp))

/-
  One inner loop keeps the cells of the list and of the new
  rectangle, and does not abort.
-/
theorem scan_keeps (acceptedError : Int) (oldLast : Nat) {r : Rect}
    {pre rects : List Rect} (hR : InBox cols rows r)
    (hPre : AllInBox cols rows pre) (hBox : AllInBox cols rows rects) :
    ∃ s, scan acceptedError r pre rects oldLast = some s ∧ Keeps cols rows r (pre ++ rects) s := by
  induction rects generalizing pre oldLast with
  | nil =>
    refine ⟨_, rfl, hPre, by simp, fun _ _ => Or.inl rfl, ?_⟩
    intro p hp
    rw [append_nil] at hp
    exact Or.inr (Or.inl hp)
  | cons current rects ih =>
    rw [allInBox_cons] at hBox
    rcases hBox with ⟨hCurrent, hRest⟩
    rcases calcIntra_spec hCols hRows hR hCurrent with ⟨hWidth, hHeight⟩
    have hrw := hR.width_eq
    have hrh := hR.height_eq
    have hcw := hCurrent.width_eq
    have hch := hCurrent.height_eq
    unfold scan
    dsimp only
    split
    · -- The rectangle is contained in the current one.
      rename_i hIn
      refine ⟨_, rfl, by simp [hPre, hCurrent, hRest], by simp, ?_, fun p hp => Or.inr (Or.inl hp)⟩
      intro p hp
      right
      left
      refine ⟨current, by simp, ?_⟩
      unfold Rect.Covers at hp ⊢
      omega
    · split
      · -- The current one is contained in the rectangle.
        rename_i hIn
        rcases ih (unlinkAt oldLast pre.length) hPre hRest with
          ⟨s, hScan, hRects, hDirty, hNew, hOld⟩
        refine ⟨s, hScan, hRects, hDirty, hNew, ?_⟩
        intro p hp
        rw [covered_append, covered_cons] at hp
        rcases hp with hp | hp | hp
        · exact hOld p (covered_append.mpr (Or.inl hp))
        · have hCover : r.Covers p := by
            unfold Rect.Covers at hp ⊢
            omega
          rcases hNew p hCover with h | h
          · exact Or.inl ⟨h, hCover⟩
          · exact Or.inr h
        · exact hOld p (covered_append.mpr (Or.inr hp))
      · split
        · -- Both are replaced by their bounding box.
          rcases calcOuterRectArea_spec hCols hRows hR hCurrent with ⟨hOuterBox, -, -, hOuter⟩
          refine ⟨_, rfl, by simp [hPre, hRest], by simpa using hOuterBox, ?_, ?_⟩
          · intro p hp
            exact Or.inr (Or.inr ⟨_, by simp, hOuter p (Or.inl hp)⟩)
          · intro p hp
            right
            rw [covered_append, covered_cons] at hp
            rcases hp with hp | hp | hp
            · exact Or.inl (covered_append.mpr (Or.inl hp))
            · exact Or.inr ⟨_, by simp, hOuter p (Or.inr hp)⟩
            · exact Or.inl (covered_append.mpr (Or.inr hp))
        · split
          · -- Nothing to do with this one.
            have hPre' : AllInBox cols rows (pre ++ [current]) := by
              simp [hPre, hCurrent]
            have hNext := ih oldLast hPre' hRest
            rw [append_assoc, singleton_append] at hNext
            exact hNext
          · rename_i hNotIn _ _ _
            exact scanSplit_keeps hCols hRows hR hCurrent hPre hRest hNotIn

/- The outer loop, when it ends. -/
theorem covered_addSplitFuzzyLoop {acceptedError : Int} {fuel : Nat}
    {rects dirty : List Rect} {oldLast : Nat} {result : List Rect × Nat}
    (hBox : AllInBox cols rows rects) (hDirty : AllInBox cols rows dirty) (hLoop : addSplitFuzzyLoop
    acceptedError fuel rects dirty oldLast = some result) :
    AllInBox cols rows result.1 ∧ ∀ p, Covered rects p ∨ Covered dirty p → Covered result.1 p := by
  induction fuel generalizing rects dirty oldLast with
  | zero =>
    cases dirty with
    | nil =>
      obtain rfl := some.inj hLoop
      exact ⟨hBox, fun p hp => by simpa using hp⟩
    | cons r dirty => simp [addSplitFuzzyLoop] at hLoop
  | succ fuel ih =>
    cases dirty with
    | nil =>
      obtain rfl := some.inj hLoop
      exact ⟨hBox, fun p hp => by simpa using hp⟩
    | cons r dirty =>
      rw [allInBox_cons] at hDirty
      rcases scan_keeps hCols hRows acceptedError oldLast
          hDirty.1 allInBox_nil hBox with ⟨s, hScan, hRects, hMore, hNew, hOld⟩
      simp only [addSplitFuzzyLoop, hScan, bind_eq_bind, bind_some] at hLoop
      have hRects' : AllInBox cols rows (if s.keepDirty then s.rects ++ [r]
        else s.rects) := by
        split
        · simp [hRects, hDirty.1]
        · exact hRects
      have hKeep : ∀ p, (s.keepDirty = true ∧ r.Covers p) ∨
            Covered s.rects p →
          Covered (if s.keepDirty then s.rects ++ [r]
            else s.rects) p := by
        intro p hp
        split
        · rw [covered_append, covered_cons]
          rcases hp with hp | hp
          · exact Or.inr (Or.inl hp.2)
          · exact Or.inl hp
        · rename_i hNot
          rcases hp with hp | hp
          · exact (hNot hp.1).elim
          · exact hp
      rcases ih hRects' (by simp [hDirty.2, hMore]) hLoop with ⟨hDone, hCover⟩
      refine ⟨hDone, ?_⟩
      intro p hp
      apply hCover
      rw [covered_append]
      rw [covered_cons] at hp
      rcases hp with hp | hp | hp
      · rcases hOld p hp with h | h | h
        · exact Or.inl (hKeep p (Or.inl h))
        · exact Or.inl (hKeep p (Or.inr h))
        · exact Or.inr (Or.inr h)
      · rcases hNew p hp with h | h | h
        · exact Or.inl (hKeep p (Or.inl ⟨h, hp⟩))
        · exact Or.inl (hKeep p (Or.inr h))
        · exact Or.inr (Or.inr h)
      · exact Or.inr (Or.inl hp)

/- A node that is merged is replaced by the bounding box. -/
theorem findMerge_spec {acceptedError : Int} {r₁ outer : Rect}
    {rects rest : List Rect} (hR : InBox cols rows r₁) (hBox : AllInBox cols rows rects)
    (hFind : findMerge acceptedError r₁ rects =
      some (rest, outer)) :
    AllInBox cols rows rest ∧ InBox cols rows outer ∧
      ∀ p, r₁.Covers p ∨ Covered rects p → outer.Covers p ∨ Covered rest p := by
  induction rects generalizing rest with
  | nil => simp [findMerge] at hFind
  | cons r₂ rects ih =>
    rw [allInBox_cons] at hBox
    rcases hBox with ⟨hR₂, hRest⟩
    unfold findMerge at hFind
    dsimp only at hFind
    split at hFind
    · simp only [Option.some.injEq, Prod.mk.injEq] at hFind
      rcases hFind with ⟨rfl, rfl⟩
      rcases calcOuterRectArea_spec hCols hRows hR hR₂ with ⟨hOuterBox, -, -, hOuter⟩
      refine ⟨hRest, hOuterBox, ?_⟩
      intro p hp
      rw [covered_cons] at hp
      rcases hp with hp | hp | hp
      · exact Or.inl (hOuter p (Or.inl hp))
      · exact Or.inl (hOuter p (Or.inr hp))
      · exact Or.inr hp
    · simp only [map_eq_some_iff, Prod.mk.injEq, Prod.exists] at hFind
      rcases hFind with ⟨rest', outer', hFind, rfl, rfl⟩
      rcases ih hRest hFind with ⟨hRest', hOuterBox, hCover⟩
      refine ⟨by simp [hR₂, hRest'], hOuterBox, ?_⟩
      intro p hp
      rw [covered_cons] at hp ⊢
      rcases hp with hp | hp | hp
      · rcases hCover p (Or.inl hp) with h | h
        · exact Or.inl h
        · exact Or.inr (Or.inr h)
      · exact Or.inr (Or.inl hp)
      · rcases hCover p (Or.inr hp) with h | h
        · exact Or.inl h
        · exact Or.inr (Or.inr h)

/- Merging keeps all cells. -/
theorem covered_mergeRects {acceptedError : Int} {fuel : Nat}
    {rects toMerge result : List Rect} (hBox : AllInBox cols rows rects)
    (hMore : AllInBox cols rows toMerge)
    (hMerge : mergeRects acceptedError fuel rects toMerge =
      some result) :
    AllInBox cols rows result ∧ ∀ p, Covered rects p ∨ Covered toMerge p → Covered result p := by
  induction fuel generalizing rects toMerge with
  | zero =>
    cases toMerge with
    | nil =>
      obtain rfl := some.inj hMerge
      exact ⟨hBox, fun p hp => by simpa using hp⟩
    | cons r₁ toMerge => simp [mergeRects] at hMerge
  | succ fuel ih =>
    cases toMerge with
    | nil =>
      obtain rfl := some.inj hMerge
      exact ⟨hBox, fun p hp => by simpa using hp⟩
    | cons r₁ toMerge =>
      rw [allInBox_cons] at hMore
      unfold mergeRects at hMerge
      cases hFind : findMerge acceptedError r₁ rects with
      | none =>
        rw [hFind] at hMerge
        rcases ih (by simp [hBox, hMore.1]) hMore.2 hMerge with ⟨hDone, hCover⟩
        refine ⟨hDone, ?_⟩
        intro p hp
        apply hCover
        rw [covered_append, covered_cons]
        rw [covered_cons] at hp
        rcases hp with hp | hp | hp
        · exact Or.inl (Or.inl hp)
        · exact Or.inl (Or.inr (Or.inl hp))
        · exact Or.inr hp
      | some found =>
        rcases found with ⟨rest, outer⟩
        rw [hFind] at hMerge
        rcases findMerge_spec hCols hRows hMore.1 hBox hFind with ⟨hRest, hOuterBox, hFound⟩
        rcases ih hRest (by simp [hMore.2, hOuterBox]) hMerge with ⟨hDone, hCover⟩
        refine ⟨hDone, ?_⟩
        intro p hp
        apply hCover
        rw [covered_append, covered_cons]
        rw [covered_cons] at hp
        rcases hp with hp | hp | hp
        · rcases hFound p (Or.inr hp) with h | h
          · exact Or.inr (Or.inr (Or.inl h))
          · exact Or.inl h
        · rcases hFound p (Or.inl hp) with h | h
          · exact Or.inr (Or.inr (Or.inl h))
          · exact Or.inl h
        · exact Or.inr (Or.inl hp)

/- Adding a rectangle keeps all cells, and adds its own. -/
theorem covered_addSplitFuzzyAndMerge {splitError mergeError : Int}
    {fuel : Nat} {rects result : List Rect} {node : Rect} (hBox :
    AllInBox cols rows rects) (hNode : InBox cols rows node) (hAdd :
    addSplitFuzzyAndMerge fuel rects node splitError mergeError =
    some result) :
    AllInBox cols rows result ∧ ∀ p, node.Covers p ∨ Covered rects p → Covered result p := by
  unfold addSplitFuzzyAndMerge at hAdd
  simp only [bind_eq_bind, bind_eq_some_iff, Prod.exists] at hAdd
  rcases hAdd with ⟨added, n, hSplit, hMerge⟩
  have hAdded : AllInBox cols rows added ∧
      ∀ p, node.Covers p ∨ Covered rects p → Covered added p := by
    unfold addSplitFuzzy at hSplit
    split at hSplit
    · rename_i hEmpty
      rw [List.isEmpty_iff] at hEmpty
      simp only [Option.some.injEq, Prod.mk.injEq] at hSplit
      rcases hSplit with ⟨rfl, -⟩
      refine ⟨by simp [hNode], ?_⟩
      intro p hp
      simpa [hEmpty] using hp
    · rcases covered_addSplitFuzzyLoop hCols hRows hBox
        (by simp [hNode]) hSplit with ⟨hDone, hCover⟩
      refine ⟨hDone, ?_⟩
      intro p hp
      apply hCover
      rw [covered_cons]
      rcases hp with hp | hp
      · exact Or.inr (Or.inl hp)
      · exact Or.inl hp
  rcases hAdded with ⟨hDone, hCover⟩
  split at hMerge
  · have hTake : AllInBox cols rows (added.take n) := fun r hr => hDone r (mem_of_mem_take hr)
    have hDrop : AllInBox cols rows (added.drop n) := fun r hr => hDone r (mem_of_mem_drop hr)
    rcases covered_mergeRects hCols hRows hTake hDrop hMerge with ⟨hBoxes, hMerged⟩
    refine ⟨hBoxes, ?_⟩
    intro p hp
    apply hMerged
    rw [← covered_append, take_append_drop]
    exact hCover p hp
  · obtain rfl := some.inj hMerge
    exact ⟨hDone, hCover⟩

end

end Efl.Eina.Tiler
