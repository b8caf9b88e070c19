import Efl.Eina.Tiler.Cover

/-
  Rectangles of the splitter whose fields fit together, and
  what the cuts make of two of them that meet.

  The cuts are described by strips between four coordinates,
  which are empty where the coordinates cross.

  Main declarations:
    * `Tiler.Solid`
    * `Tiler.Meets`
    * `Tiler.splitStrict_eq`
    * `Tiler.covered_surround`
-/

---
-- Solid Rectangles
---

namespace Efl.Eina.Tiler

open CInt

/-
  A rectangle of positive size, whose ends are `int` values
  and whose other fields follow from them.
-/
structure Solid (r : Rect) : Prop where
  left_ge : -2147483648 ≤ r.left
  top_ge : -2147483648 ≤ r.top
  right_le : r.right ≤ intMax
  bottom_le : r.bottom ≤ intMax
  left_lt : r.left < r.right
  top_lt : r.top < r.bottom
  width_eq : r.width = r.right - r.left
  height_eq : r.height = r.bottom - r.top
  width_le : r.width ≤ intMax
  height_le : r.height ≤ intMax
  area_eq : r.area = wrap (r.width * r.height)

/- Both rectangles cover a cell in common. -/
structure Meets (a b : Rect) : Prop where
  left_lt : a.left < b.right
  right_gt : b.left < a.right
  top_lt : a.top < b.bottom
  bottom_gt : b.top < a.bottom

/- No cell is in both rectangles. -/
def Apart (a b : Rect) : Prop :=
  ∀ p, a.Covers p → ¬ b.Covers p

theorem Apart.symm {a b : Rect} (hApart : Apart a b) : Apart b a := fun p hB hA => hApart p hA hB

instance (a b : Rect) : Decidable (Meets a b) :=
  decidable_of_iff
    ((a.left < b.right ∧ b.left < a.right) ∧
      a.top < b.bottom ∧ b.top < a.bottom)
    ⟨fun h => ⟨h.1.1, h.1.2, h.2.1, h.2.2⟩,
      fun h => ⟨⟨h.1, h.2⟩, h.3, h.4⟩⟩

instance (r : Rect) : Decidable (Solid r) :=
  decidable_of_iff
    ((-2147483648 ≤ r.left ∧ -2147483648 ≤ r.top ∧
      r.right ≤ intMax ∧ r.bottom ≤ intMax ∧
      r.left < r.right ∧ r.top < r.bottom) ∧
      r.width = r.right - r.left ∧
      r.height = r.bottom - r.top ∧
      r.width ≤ intMax ∧ r.height ≤ intMax ∧
      r.area = wrap (r.width * r.height))
    ⟨fun ⟨⟨h₁, h₂, h₃, h₄, h₅, h₆⟩, h₇, h₈, h₉, h₁₀, h₁₁⟩ =>
        ⟨h₁, h₂, h₃, h₄, h₅, h₆, h₇, h₈, h₉, h₁₀, h₁₁⟩,
      fun ⟨h₁, h₂, h₃, h₄, h₅, h₆, h₇, h₈, h₉, h₁₀, h₁₁⟩ =>
        ⟨⟨h₁, h₂, h₃, h₄, h₅, h₆⟩, h₇, h₈, h₉, h₁₀, h₁₁⟩⟩

section

variable {a b : Rect} (hA : Solid a) (hB : Solid b)

theorem Meets.symm (hMeets : Meets a b) : Meets b a := ⟨hMeets.2, hMeets.1, hMeets.4, hMeets.3⟩

include hA hB

theorem meets_iff : Meets a b ↔ ∃ p, a.Covers p ∧ b.Covers p := by
  have hA₁ := hA.left_lt
  have hA₂ := hA.top_lt
  have hB₁ := hB.left_lt
  have hB₂ := hB.top_lt
  constructor
  · rintro ⟨h₁, h₂, h₃, h₄⟩
    refine ⟨(max a.left b.left, max a.top b.top), ?_⟩
    unfold Rect.Covers
    dsimp only
    omega
  · rintro ⟨p, hInA, hInB⟩
    unfold Rect.Covers at hInA hInB
    constructor <;> omega

theorem apart_iff : Apart a b ↔ ¬ Meets a b := by
  rw [meets_iff hA hB]
  unfold Apart
  simp only [not_exists, not_and]

end

/-
  The rectangle between four coordinates, if there is a cell
  between them.
-/
def strip (left top right bottom : Int) : List Rect :=
  if left < right ∧ top < bottom then
    [{ left := left
       top := top
       right := right
       bottom := bottom
       width := right - left
       height := bottom - top
       area := wrap ((right - left) * (bottom - top)) }]
  else
    []

section

variable {left top right bottom : Int}

@[simp] theorem covered_strip {p : Pixel} :
    Covered (strip left top right bottom) p ↔
      left ≤ p.1 ∧ p.1 < right ∧ top ≤ p.2 ∧ p.2 < bottom := by
  unfold strip
  split
  · simp [Rect.Covers]
  · rw [iff_false_left (covered_nil p)]
    omega

theorem strip_apart : (strip left top right bottom).Pairwise Apart := by
  unfold strip
  split
  · exact List.pairwise_singleton _ _
  · exact List.Pairwise.nil

/- A strip of a solid rectangle -/
theorem strip_solid {b : Rect} (hB : Solid b) (hLeft : b.left ≤ left) (hTop : b.top ≤ top)
    (hRight : right ≤ b.right) (hBottom : bottom ≤ b.bottom)
    (q : Rect) (hMem : q ∈ strip left top right bottom) : Solid q := by
  rcases hB with ⟨b₁, b₂, b₃, b₄, b₅, b₆, b₇, b₈, b₉, b₁₀, -⟩
  unfold strip at hMem
  split at hMem
  · rw [List.mem_singleton] at hMem
    subst hMem
    constructor <;> dsimp only <;> omega
  · simp at hMem

end

/- What `rect_list_append_xywh` makes of a strip's size -/
theorem rectInit_eq {x y w h : Int} (hX : CInt.InRange x)
    (hY : CInt.InRange y) (hW : 0 < w) (hH : 0 < h)
    (hRight : x + w ≤ intMax) (hBottom : y + h ≤ intMax) :
    [rectInit x y w h] = strip x y (x + w) (y + h) := by
  unfold intMax at hRight hBottom
  unfold CInt.InRange at hX hY
  have hWrapX : wrap (x + w) = x + w := wrap_of_inRange (by unfold CInt.InRange; omega)
  have hWrapY : wrap (y + h) = y + h := wrap_of_inRange (by unfold CInt.InRange; omega)
  unfold strip rectInit
  rw [if_pos (by omega), hWrapX, hWrapY, add_sub_cancel_left, add_sub_cancel_left]

---
-- Cuts
---

section

variable {a b : Rect} (hA : Solid a) (hB : Solid b) (hMeets : Meets a b)

include hA hB hMeets

/- Differences of two spans that meet do not wrap. -/
theorem wrap_differences :
    wrap (a.top - b.top) = a.top - b.top ∧
      wrap (b.bottom - a.bottom) = b.bottom - a.bottom ∧
      wrap (a.left - b.left) = a.left - b.left ∧ wrap (b.right - a.right) = b.right - a.right := by
  rcases hA with ⟨a₁, a₂, a₃, a₄, a₅, a₆, a₇, a₈, a₉, a₁₀, -⟩
  rcases hB with ⟨b₁, b₂, b₃, b₄, b₅, b₆, b₇, b₈, b₉, b₁₀, -⟩
  rcases hMeets with ⟨h₁, h₂, h₃, h₄⟩
  unfold intMax at a₉ a₁₀ b₉ b₁₀
  unfold wrap
  refine ⟨?_, ?_, ?_, ?_⟩ <;> omega

/- The band of `b` from the tops of both to its own bottom -/
theorem cutAbove_eq :
    cutAbove a b =
      (strip b.left b.top b.right a.top,
        { b with
          height := b.bottom - max a.top b.top
          top := max a.top b.top }) := by
  have hWraps := wrap_differences hA hB hMeets
  rcases hA with ⟨a₁, a₂, a₃, a₄, a₅, a₆, a₇, a₈, a₉, a₁₀, -⟩
  rcases hB with ⟨b₁, b₂, b₃, b₄, b₅, b₆, b₇, b₈, b₉, b₁₀, -⟩
  rcases hMeets with ⟨h₁, h₂, h₃, h₄⟩
  unfold cutAbove
  simp only [hWraps.1]
  unfold intMax at *
  split
  · rw [rectInit_eq, max_eq_left (by omega),
      show b.left + b.width = b.right by omega,
      show b.top + (a.top - b.top) = a.top by omega]
    · have hRest : wrap (b.height - (a.top - b.top)) = b.bottom - a.top := by
        unfold wrap
        omega
      rw [hRest]
    all_goals first
      | (unfold CInt.InRange; omega)
      | (unfold intMax; omega)
      | omega
  · unfold strip
    rw [if_neg (by omega), max_eq_right (by omega), ← b₈]

/- The band of `b` that is also between the top and bottom of `a` -/
theorem cutBelow_eq :
    cutBelow a
        { b with
          height := b.bottom - max a.top b.top
          top := max a.top b.top } =
      (strip b.left a.bottom b.right b.bottom,
        { b with
          height := min a.bottom b.bottom - max a.top b.top
          top := max a.top b.top }) := by
  have hWraps := wrap_differences hA hB hMeets
  rcases hA with ⟨a₁, a₂, a₃, a₄, a₅, a₆, a₇, a₈, a₉, a₁₀, -⟩
  rcases hB with ⟨b₁, b₂, b₃, b₄, b₅, b₆, b₇, b₈, b₉, b₁₀, -⟩
  rcases hMeets with ⟨h₁, h₂, h₃, h₄⟩
  unfold cutBelow
  simp only [hWraps.2.1]
  unfold intMax at *
  split
  · rw [rectInit_eq, min_eq_left (by omega),
      show b.left + b.width = b.right by omega,
      show a.bottom + (b.bottom - a.bottom) = b.bottom by omega]
    · have hRest : wrap (b.bottom - max a.top b.top -
          (b.bottom - a.bottom)) = a.bottom - max a.top b.top := by
        unfold wrap
        omega
      rw [hRest]
    all_goals first
      | (unfold CInt.InRange; omega)
      | (unfold intMax; omega)
      | omega
  · unfold strip
    rw [if_neg (by omega), min_eq_right (by omega)]

theorem cutSides_eq :
    cutSides a
        { b with
          height := min a.bottom b.bottom - max a.top b.top
          top := max a.top b.top } =
      strip b.left (max a.top b.top) a.left (min a.bottom b.bottom) ++ strip a.right
          (max a.top b.top) b.right (min a.bottom b.bottom) := by
  have hWraps := wrap_differences hA hB hMeets
  rcases hA with ⟨a₁, a₂, a₃, a₄, a₅, a₆, a₇, a₈, a₉, a₁₀, -⟩
  rcases hB with ⟨b₁, b₂, b₃, b₄, b₅, b₆, b₇, b₈, b₉, b₁₀, -⟩
  rcases hMeets with ⟨h₁, h₂, h₃, h₄⟩
  have hEnd : max a.top b.top +
      (min a.bottom b.bottom - max a.top b.top) = min a.bottom b.bottom := by
    omega
  unfold cutSides
  simp only [hWraps.2.2.1, hWraps.2.2.2]
  unfold intMax at *
  congr 1
  · split
    · rw [rectInit_eq, hEnd,
        show b.left + (a.left - b.left) = a.left by omega]
      all_goals first
        | (unfold CInt.InRange; omega)
        | (unfold intMax; omega)
        | omega
    · unfold strip
      rw [if_neg (by omega)]
  · split
    · rw [rectInit_eq, hEnd,
        show a.right + (b.right - a.right) = b.right by omega]
      all_goals first
        | (unfold CInt.InRange; omega)
        | (unfold intMax; omega)
        | omega
    · unfold strip
      rw [if_neg (by omega)]

end

/- What the cuts leave of `b` around `a` -/
def surround (a b : Rect) : List Rect :=
  strip b.left b.top b.right a.top ++
    strip b.left a.bottom b.right b.bottom ++
    (strip b.left (max a.top b.top) a.left
        (min a.bottom b.bottom) ++
      strip a.right (max a.top b.top) b.right
        (min a.bottom b.bottom))

section

variable {a b : Rect}

theorem splitStrict_eq (hA : Solid a) (hB : Solid b)
    (hMeets : Meets a b) : splitStrict a b = surround a b := by
  unfold splitStrict
  rw [cutAbove_eq hA hB hMeets]
  dsimp only
  rw [cutBelow_eq hA hB hMeets]
  dsimp only
  rw [cutSides_eq hA hB hMeets]
  rfl

/- The cells of `b` that are not in `a` -/
theorem covered_surround (hMeets : Meets a b) (p : Pixel) :
    Covered (surround a b) p ↔ b.Covers p ∧ ¬ a.Covers p := by
  rcases hMeets with ⟨h₁, h₂, h₃, h₄⟩
  unfold surround Rect.Covers
  simp only [covered_append, covered_strip, max_le_iff, lt_min_iff]
  omega

theorem surround_solid (hA : Solid a) (hB : Solid b)
    (hMeets : Meets a b) (q : Rect) (hMem : q ∈ surround a b) : Solid q := by
  rcases hMeets with ⟨h₁, h₂, h₃, h₄⟩
  unfold surround at hMem
  simp only [List.mem_append] at hMem
  rcases hMem with (hMem | hMem) | hMem | hMem <;>
    refine strip_solid hB ?_ ?_ ?_ ?_ q hMem <;> omega

/- Members of two lists that cover different cells -/
theorem pairwise_append_apart {rects others : List Rect}
    (hRects : rects.Pairwise Apart) (hOthers : others.Pairwise Apart)
    (hNever : ∀ p, Covered rects p → ¬ Covered others p) : (rects ++ others).Pairwise Apart := by
  rw [List.pairwise_append]
  refine ⟨hRects, hOthers, ?_⟩
  intro q hQ q' hQ' p hIn hIn'
  exact hNever p ⟨q, hQ, hIn⟩ ⟨q', hQ', hIn'⟩

theorem surround_apart (hA : Solid a) : (surround a b).Pairwise Apart := by
  have hA₁ := hA.left_lt
  have hA₂ := hA.top_lt
  unfold surround
  refine pairwise_append_apart (pairwise_append_apart strip_apart strip_apart ?_)
    (pairwise_append_apart strip_apart strip_apart ?_) ?_
  · intro p
    simp only [covered_strip]
    omega
  · intro p
    simp only [covered_strip]
    omega
  · intro p
    simp only [covered_append, covered_strip, max_le_iff, lt_min_iff]
    omega

end

end Efl.Eina.Tiler
