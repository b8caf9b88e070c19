import Mathlib.Data.Set.Lattice
import Efl.Eina.Tiler.Coverage
import Efl.Eina.Tiler.Difference
import Efl.Eina.Tiler.WorkLoop

/-
  When the rectangles of a tiler do not overlap.

  The work loop keeps rectangles apart unless it neither cuts
  nor merges a rectangle that overlaps one of the list, and
  so does the merge pass unless it finds no partner for one.

  Main declarations:
    * `Tiler.loopClean`, `Tiler.mergeClean`
    * `Tiler.opClean`
    * `Tiler.loop_apart`, `Tiler.merge_apart`
    * `Tiler.yielded_disjoint`
-/

---
-- Clean Calls
---

namespace Efl.Eina.Tiler

open CInt

/- The rectangle overlaps none of the list. -/
def isClear (r : Rect) (rects : List Rect) : Bool :=
  rects.all fun q => !decide (Meets r q)

/-
  Every rectangle for which the inner loop has come to the end
  of the list, with "no split, no merge" for all that is in it,
  overlaps none of it.
-/
def loopClean (acceptedError : Int) : Nat → List Rect → List Rect → Nat → Bool
  | fuel + 1, rects, r :: dirty, oldLast =>
    match scan acceptedError r [] rects oldLast with
    | none => true
    | some s =>
      (!s.keepDirty || isClear r s.rects) &&
        loopClean acceptedError fuel
          (if s.keepDirty then s.rects ++ [r] else s.rects)
          (dirty ++ s.dirty) s.oldLast
  | _, _, _, _ => true

/-
  Every rectangle for which `rect_list_merge_rects` finds no
  other to merge with overlaps none of the list.
-/
def mergeClean (acceptedError : Int) : Nat → List Rect → List Rect → Bool
  | fuel + 1, rects, r₁ :: toMerge =>
    match findMerge acceptedError r₁ rects with
    | some (rects, outer) =>
      mergeClean acceptedError fuel rects
        (toMerge ++ [outer])
    | none =>
      isClear r₁ rects &&
        mergeClean acceptedError fuel (rects ++ [r₁]) toMerge
  | _, _, _ => true

/- Both for `rect_list_add_split_fuzzy_and_merge` -/
def addClean (fuel : Nat) (rects : List Rect) (node : Rect) (acceptedError : Int) : Bool :=
  (rects.isEmpty ||
    loopClean acceptedError fuel rects [node] rects.length) &&
    match addSplitFuzzy fuel rects node acceptedError with
    | none => true
    | some (rects, n) =>
      if 0 < n then
        mergeClean acceptedError fuel (rects.take n)
          (rects.drop n)
      else
        true

/- The same for the loop of strict mode -/
def roundClean (fuel : Nat) (t : Tiler) : List Rect → List Rect → Bool
  | [], _ => true
  | r :: rects, toMerge =>
    addClean fuel toMerge (t.roundTiles r) t.tileArea &&
      match addSplitFuzzyAndMerge fuel toMerge
        (t.roundTiles r) t.tileArea t.tileArea with
      | none => true
      | some toMerge => roundClean fuel t rects toMerge

/- For `eina_tiler_iterator_new` -/
def iteratorClean (fuel : Nat) (t : Tiler) : Bool :=
  if t.needMerge then
    if t.strict then
      roundClean fuel t t.rects [] &&
        match roundRects fuel t t.rects [] with
        | none => true
        | some toMerge => mergeClean t.tileArea fuel [] toMerge
    else
      mergeClean t.tileArea fuel [] t.rects
  else
    true

/- For `eina_tiler_rect_add` -/
def rectAddClean (fuel : Nat) (t : Tiler) (r : Rectangle) : Bool :=
  match t.clip r with
  | none => true
  | some tmp =>
    if tmp = t.lastAdd then
      true
    else
      let rect := roundAdd t.rounding tmp
      addClean fuel t.rects
        (rectInit rect.x rect.y rect.w rect.h) t.tileArea

/- For any call -/
def opClean (t : Tiler) (op : Nat × Op) : Bool :=
  match op with
  | (fuel, .add r) => rectAddClean fuel t r
  | (_, .del _) => true
  | (_, .clear) => true
  | (fuel, .iterate) => iteratorClean fuel t

---
-- The Splitter
---

/- Rectangles of a list that do not overlap -/
structure Neat (v : Rect) (rects : List Rect) : Prop where
  within : ∀ r ∈ rects, Within v r
  apart : rects.Pairwise Apart

section

variable {v r node : Rect} {acceptedError : Int}
  {rects others : List Rect}

theorem Neat.perm (hNeat : Neat v rects) (hPerm : rects.Perm others) : Neat v others where
  within q hMem := hNeat.within q (hPerm.mem_iff.mpr hMem)
  apart := (hPerm.pairwise_iff Apart.symm).mp hNeat.apart

theorem Neat.left (hNeat : Neat v (rects ++ others)) : Neat v rects where
  within q hMem := hNeat.within q (List.mem_append_left _ hMem)
  apart := (List.pairwise_append.mp hNeat.apart).1

theorem Neat.right (hNeat : Neat v (rects ++ others)) : Neat v others where
  within q hMem := hNeat.within q (List.mem_append_right _ hMem)
  apart := (List.pairwise_append.mp hNeat.apart).2.1

theorem Neat.append (hNeat : Neat v rects) (hR : Within v r)
    (hApart : ∀ q ∈ rects, Apart r q) : Neat v (rects ++ [r]) where
  within := by
    rw [List.forall_mem_append, List.forall_mem_singleton]
    exact ⟨hNeat.within, hR⟩
  apart := by
    rw [List.pairwise_append]
    refine ⟨hNeat.apart, List.pairwise_singleton _ _, ?_⟩
    intro q hMem q' hMem'
    rw [List.mem_singleton] at hMem'
    subst hMem'
    exact (hApart q hMem).symm

/- A rectangle that overlaps none of a list -/
theorem isClear_apart (hR : Within v r) (hRects : ∀ q ∈ rects, Within v q)
    (hClear : isClear r rects = true) : ∀ q ∈ rects, Apart r q := by
  intro q hMem
  have hNot := List.all_eq_true.mp hClear q hMem
  rw [Bool.not_eq_true', decide_eq_false_iff_not] at hNot
  exact (apart_iff hR.solid (hRects q hMem).solid).mpr hNot

/- A pass takes rectangles from the list, and puts none in. -/
theorem Outcome.neat {s : Scan} (hV : Solid v) (hR : Within v r) (hNeat : Neat v rects)
    (hOutcome : Outcome acceptedError r [] rects s) :
    Neat v s.rects ∧ ∀ q ∈ s.dirty, Within v q := by
  cases hOutcome with
  | keep hPerm _ =>
    exact ⟨(hNeat.perm hPerm).left, List.forall_mem_nil _⟩
  | inside _ _ hPerm _ =>
    exact ⟨(hNeat.perm hPerm).left, List.forall_mem_nil _⟩
  | @merge s gone _ current _ hPerm _ =>
    have hCurrent := (hNeat.perm hPerm).within current (by simp)
    refine ⟨(hNeat.perm hPerm).left, ?_⟩
    rw [List.forall_mem_singleton]
    exact (outer_within hV hR hCurrent).1
  | @split s gone _ current hMem hMeets hPerm _ =>
    have hCurrent := (hNeat.perm hPerm).left.within current hMem
    exact ⟨(hNeat.perm hPerm).left, surround_within hV hCurrent hR hMeets⟩
  | @side s gone _ current _ _ _ hPerm _ =>
    have hCurrent := (hNeat.perm hPerm).within current (by simp)
    exact ⟨(hNeat.perm hPerm).left, (sideBySide_within hV hCurrent hR).1⟩

/- The work loop keeps the list neat. -/
theorem loop_apart {dirty : List Rect} {oldLast fuel : Nat}
    {result : List Rect × Nat} (hError : 0 ≤ acceptedError) (hV : Solid v) (hNeat : Neat v rects)
    (hDirty : ∀ q ∈ dirty, Within v q) (hClean :
      loopClean acceptedError fuel rects dirty oldLast = true)
    (hLoop : addSplitFuzzyLoop acceptedError fuel rects dirty
      oldLast = some result) : Neat v result.1 := by
  induction fuel generalizing rects dirty oldLast with
  | zero =>
    cases dirty with
    | nil =>
      obtain rfl := Option.some.inj hLoop
      exact hNeat
    | cons r dirty => cases hLoop
  | succ fuel ih =>
    cases dirty with
    | nil =>
      obtain rfl := Option.some.inj hLoop
      exact hNeat
    | cons r dirty =>
      rw [List.forall_mem_cons] at hDirty
      rcases scan_outcome [] oldLast hError hV hDirty.1 hNeat.within with ⟨s, hScan, hOutcome⟩
      rcases hOutcome.neat hV hDirty.1 hNeat with ⟨hKept, hPieces⟩
      simp only [loopClean, hScan, Bool.and_eq_true, Bool.or_eq_true, Bool.not_eq_true'] at hClean
      simp only [addSplitFuzzyLoop, hScan, Option.bind_eq_bind, Option.bind_some] at hLoop
      refine ih ?_ ?_ hClean.2 hLoop
      · split
        case isTrue hKeep =>
          have hClear := hClean.1.resolve_left (by rw [hKeep]; decide)
          exact hKept.append hDirty.1 (isClear_apart hDirty.1 hKept.within hClear)
        case isFalse => exact hKept
      · rw [List.forall_mem_append]
        exact ⟨hDirty.2, hPieces⟩

/- The node that is merged is taken from the list. -/
theorem findMerge_perm {outer : Rect} {rest : List Rect}
    (hFind : findMerge acceptedError r rects =
      some (rest, outer)) : ∃ r₂, outer = calcOuterRectArea r r₂ ∧ rects.Perm (r₂ :: rest) := by
  induction rects generalizing rest with
  | nil => cases hFind
  | cons r₂ rects ih =>
    unfold findMerge at hFind
    dsimp only at hFind
    split at hFind
    · simp only [Option.some.injEq, Prod.mk.injEq] at hFind
      rcases hFind with ⟨rfl, rfl⟩
      exact ⟨r₂, rfl, List.Perm.refl _⟩
    · simp only [Option.map_eq_some_iff, Prod.mk.injEq, Prod.exists] at hFind
      rcases hFind with ⟨rest', outer', hFind, rfl, rfl⟩
      rcases ih hFind with ⟨q, hOuter, hPerm⟩
      exact ⟨q, hOuter, (hPerm.cons r₂).trans (List.Perm.swap q r₂ rest')⟩

/- The merge pass keeps the list neat. -/
theorem merge_apart {fuel : Nat} {toMerge result : List Rect} (hV : Solid v) (hNeat : Neat v rects)
    (hMore : ∀ q ∈ toMerge, Within v q) (hClean :
      mergeClean acceptedError fuel rects toMerge = true)
    (hMerge : mergeRects acceptedError fuel rects toMerge = some result) : Neat v result := by
  induction fuel generalizing rects toMerge with
  | zero =>
    cases toMerge with
    | nil =>
      obtain rfl := Option.some.inj hMerge
      exact hNeat
    | cons r toMerge => cases hMerge
  | succ fuel ih =>
    cases toMerge with
    | nil =>
      obtain rfl := Option.some.inj hMerge
      exact hNeat
    | cons r toMerge =>
      rw [List.forall_mem_cons] at hMore
      unfold mergeRects at hMerge
      unfold mergeClean at hClean
      cases hFind : findMerge acceptedError r rects with
      | none =>
        rw [hFind] at hMerge hClean
        dsimp only at hClean
        rw [Bool.and_eq_true] at hClean
        have hApart := isClear_apart hMore.1 hNeat.within hClean.1
        exact ih (hNeat.append hMore.1 hApart) hMore.2 hClean.2 hMerge
      | some found =>
        rcases found with ⟨rest, outer⟩
        rw [hFind] at hMerge hClean
        rcases findMerge_perm hFind with ⟨r₂, rfl, hPerm⟩
        have hFull : Neat v ([r₂] ++ rest) := hNeat.perm hPerm
        have hOuter := (outer_within hV hMore.1 (hFull.within r₂ (by simp))).1
        refine ih hFull.right ?_ hClean hMerge
        rw [List.forall_mem_append, List.forall_mem_singleton]
        exact ⟨hMore.2, hOuter⟩

/- Adding a rectangle -/
theorem add_apart {fuel : Nat} {result : List Rect} (hError : 0 ≤ acceptedError) (hV : Solid v)
    (hNeat : Neat v rects) (hNode : Within v node)
    (hClean : addClean fuel rects node acceptedError = true)
    (hAdd : addSplitFuzzyAndMerge fuel rects node acceptedError
      acceptedError = some result) : Neat v result := by
  unfold addSplitFuzzyAndMerge at hAdd
  simp only [Option.bind_eq_bind, Option.bind_eq_some_iff, Prod.exists] at hAdd
  rcases hAdd with ⟨added, n, hSplit, hMerge⟩
  unfold addClean at hClean
  rw [hSplit, Bool.and_eq_true, Bool.or_eq_true] at hClean
  rcases hClean with ⟨hLoopClean, hMergeClean⟩
  have hAdded : Neat v added := by
    unfold addSplitFuzzy at hSplit
    split at hSplit
    case isTrue =>
      obtain rfl := (Prod.mk.inj (Option.some.inj hSplit)).1
      refine ⟨?_, List.pairwise_singleton _ _⟩
      rw [List.forall_mem_singleton]
      exact hNode
    case isFalse hSome =>
      show Neat v (added, n).1
      refine loop_apart hError hV hNeat ?_ (hLoopClean.resolve_left hSome) hSplit
      rw [List.forall_mem_singleton]
      exact hNode
  dsimp only at hMergeClean
  split at hMerge
  case isTrue hPos =>
    rw [if_pos hPos] at hMergeClean
    rw [← List.take_append_drop n added] at hAdded
    exact merge_apart hV hAdded.left hAdded.right.within hMergeClean hMerge
  case isFalse =>
    obtain rfl := Option.some.inj hMerge
    exact hAdded

end

---
-- The Tiler
---

/- All cells that the rectangles of a tiler can reach -/
def frame (t : Tiler) : Rect :=
  rectInit 0 0 t.cols t.rows

/- A rectangle in a box that has a cell -/
theorem solid_of_inBox {cols rows : Int} {r : Rect} {p : Pixel}
    (hCols : cols ≤ intMax) (hRows : rows ≤ intMax) (hBox : InBox cols rows r)
    (hArea : r.area = wrap (r.width * r.height)) (hCovers : r.Covers p) : Solid r := by
  rcases hBox with ⟨h₁, h₂, h₃, h₄, h₅, h₆, h₇, h₈, h₉, h₁₀⟩
  unfold Rect.Covers at hCovers
  constructor
  case area_eq => exact hArea
  all_goals omega

/- A rectangle of positive size, as it is initialised -/
theorem rectInit_solid {cols rows x y w h : Int} (hCols : cols ≤ intMax)
    (hRows : rows ≤ intMax) (hBox : InBox cols rows (rectInit x y w h))
    (hW : 0 < w) (hH : 0 < h) : Solid (rectInit x y w h) := by
  have hWidth := hBox.width_eq
  have hHeight := hBox.height_eq
  refine solid_of_inBox (p := (x, y)) hCols hRows hBox rfl ?_
  unfold Rect.Covers
  unfold rectInit at hWidth hHeight ⊢
  dsimp only at hWidth hHeight ⊢
  omega

/- Solid rectangles in a box are near each other. -/
theorem near_of_inBox {cols rows cols' rows' : Int} {a b : Rect}
    (hCols : cols ≤ intMax) (hRows : rows ≤ intMax)
    (hCols' : cols' ≤ intMax) (hRows' : rows' ≤ intMax)
    (hA : InBox cols rows a) (hB : InBox cols' rows' b) : Near a b := by
  rcases hA with ⟨a₁, a₂, a₃, a₄, a₅, a₆, a₇, a₈, -, -⟩
  rcases hB with ⟨b₁, b₂, b₃, b₄, b₅, b₆, b₇, b₈, -, -⟩
  unfold intMax at *
  constructor <;> omega

section

variable {t : Tiler}

theorem frame_solid (hSound : t.Sound) :
    Solid t.frame ∧ t.frame.left = 0 ∧ t.frame.top = 0 ∧
      t.frame.right = t.cols ∧ t.frame.bottom = t.rows := by
  rcases hSound.cols_spec with ⟨hCols, hColsMax⟩
  rcases hSound.rows_spec with ⟨hRows, hRowsMax⟩
  have hW := hSound.area.w_pos
  have hH := hSound.area.h_pos
  have hColsPos : 0 < t.cols := by
    split at hCols <;> omega
  have hRowsPos : 0 < t.rows := by
    split at hRows <;> omega
  rcases rectInit_inBox hColsMax hRowsMax (x := 0) (y := 0)
      (w := t.cols) (h := t.rows) (le_refl 0) (by omega)
      (by omega) (by omega) (le_refl 0) (by omega) (by omega)
      (by omega) with ⟨hBox, hRight, hBottom⟩
  rw [zero_add] at hRight hBottom
  refine ⟨solid_of_inBox (p := (0, 0)) hColsMax hRowsMax hBox
    rfl ?_, rfl, rfl, hRight, hBottom⟩
  unfold frame Rect.Covers
  rw [hRight, hBottom]
  exact ⟨le_refl 0, hColsPos, le_refl 0, hRowsPos⟩

theorem within_frame {r : Rect} (hSound : t.Sound)
    (hBox : InBox t.cols t.rows r) (hSolid : Solid r) : Within t.frame r := by
  rcases frame_solid hSound with ⟨-, hLeft, hTop, hRight, hBottom⟩
  refine ⟨hSolid, ?_, ?_, ?_, ?_⟩
  · rw [hLeft]
    exact hBox.left_nonneg
  · rw [hRight]
    exact hBox.right_le
  · rw [hTop]
    exact hBox.top_nonneg
  · rw [hBottom]
    exact hBox.bottom_le

/-
  A tiler whose rectangles do not overlap, and whose accepted
  error is an area
-/
structure Tidy (t : Tiler) : Prop where
  sound : t.Sound
  neat : Neat t.frame t.rects
  tileArea_nonneg : 0 ≤ t.tileArea

/- The rectangle that is added for one in the area -/
theorem roundAdd_within {r : Rectangle} (hSound : t.Sound)
    (hInside : r.Inside t.area) :
    Within t.frame (rectInit (roundAdd t.rounding r).x (roundAdd t.rounding r).y
      (roundAdd t.rounding r).w (roundAdd t.rounding r).h) := by
  have hW := hInside.w_pos
  have hH := hInside.h_pos
  rcases roundAdd_spec hSound (placed_of_inside hInside) with ⟨hBox, hCovers⟩
  refine within_frame hSound hBox ?_
  exact solid_of_inBox hSound.cols_spec.2 hSound.rows_spec.2 hBox rfl
    (hCovers (r.x, r.y) (le_refl _) (Or.inl (by dsimp only; omega))
    (le_refl _) (Or.inl (by dsimp only; omega)))

/- A rectangle rounded up to tiles -/
theorem roundTiles_within {r : Rect} (hSound : t.Sound)
    (hStrict : t.strict = true) (hWithin : Within t.frame r)
    (hBox : InBox t.cols t.rows r) : Within t.frame (t.roundTiles r) := by
  rcases roundTiles_spec hSound hStrict hBox with ⟨hTiles, hCovers⟩
  refine within_frame hSound hTiles ?_
  have hLeft := hWithin.solid.left_lt
  have hTop := hWithin.solid.top_lt
  refine solid_of_inBox hSound.cols_spec.2 hSound.rows_spec.2
    hTiles rfl (hCovers (r.left, r.top) ?_)
  exact ⟨le_refl _, hLeft, le_refl _, hTop⟩

theorem rectAdd_tidy {fuel : Nat} {t' : Tiler} {r : Rectangle} {result : Bool}
    (hTidy : t.Tidy) (hRange : r.InRange) (hClean : rectAddClean fuel t r = true)
    (hAdd : rectAdd fuel t r = some (t', result)) : t'.Tidy := by
  have hSound := hTidy.sound
  have hDone := (rectAdd_spec hSound hRange hAdd).1
  unfold rectAdd at hAdd
  unfold rectAddClean at hClean
  cases hClip : t.clip r with
  | none =>
    rw [hClip] at hAdd
    obtain rfl := (Prod.mk.inj (Option.some.inj hAdd)).1
    exact hTidy
  | some tmp =>
    rw [hClip] at hAdd hClean
    dsimp only at hAdd hClean
    split at hAdd
    case isTrue =>
      obtain rfl := (Prod.mk.inj (Option.some.inj hAdd)).1
      exact hTidy
    case isFalse hNew =>
      rw [if_neg hNew] at hClean
      unfold splitterRectAdd at hAdd
      simp only [Option.bind_eq_bind, Option.bind_eq_some_iff] at hAdd
      rcases hAdd with ⟨t₁, ⟨rects, hSplit, hEq⟩, hEq'⟩
      obtain rfl := Option.some.inj hEq
      obtain rfl := (Prod.mk.inj (Option.some.inj hEq')).1
      have hNode := roundAdd_within hSound (clip_some hSound.area hRange hClip).1
      exact ⟨hDone, add_apart hTidy.tileArea_nonneg
        (frame_solid hSound).1 hTidy.neat hNode hClean hSplit, hTidy.tileArea_nonneg⟩

/- Deleting cuts the rectangles, and keeps them apart. -/
theorem rectDel_tidy {r : Rectangle} (hTidy : t.Tidy)
    (hRange : r.InRange) : (rectDel t r).Tidy := by
  have hSound := hTidy.sound
  have hDone := (rectDel_spec hSound hRange).1
  unfold rectDel at hDone ⊢
  cases hClip : t.clip r with
  | none => exact hTidy
  | some tmp =>
    rw [hClip] at hDone
    dsimp only at hDone ⊢
    split
    case isTrue => exact hTidy
    case isFalse hNew =>
      rw [if_neg hNew] at hDone
      rcases clip_some hSound.area hRange hClip with ⟨hInside, -⟩
      have hRight := hInside.right_le
      have hBottom := hInside.bottom_le
      have hWidth := hSound.area.w_le
      have hHeight := hSound.area.h_le
      unfold splitterRectDel at hDone ⊢
      dsimp only at hDone ⊢
      split
      case isTrue =>
        exact ⟨⟨hSound.area, hSound.tileW_pos, hSound.tileH_pos,
          hSound.fits, hSound.inBox⟩, hTidy.neat, hTidy.tileArea_nonneg⟩
      case isFalse hSome =>
        rw [if_neg hSome] at hDone
        split
        case isTrue =>
          exact ⟨⟨hSound.area, hSound.tileW_pos, hSound.tileH_pos, hSound.fits, hSound.inBox⟩,
            hTidy.neat, hTidy.tileArea_nonneg⟩
        case isFalse hValid =>
          rw [if_neg hValid] at hDone
          rcases roundDel_spec t.rounding hInside.x_nonneg hInside.y_nonneg (by omega) (by omega)
              (le_of_lt hInside.w_pos) (le_of_lt hInside.h_pos) (by omega) with ⟨hBox, -⟩
          have hDel := rectInit_solid (le_refl _) (le_refl _) hBox (by omega) (by omega)
          have hDiff := delSplitStrictLoop_spec hDel (fun q hMem =>
            (hTidy.neat.within q hMem).solid) (fun q hMem =>
            near_of_inBox (le_refl _) (le_refl _) hSound.cols_spec.2
            hSound.rows_spec.2 hBox (hSound.inBox q hMem))
          refine ⟨hDone, ⟨?_, hDiff.apart hTidy.neat.apart⟩, hTidy.tileArea_nonneg⟩
          intro q hMem
          exact within_frame hDone (hDone.inBox q hMem) (hDiff.solid q hMem)

end

---
-- Runs
---

section

variable {t : Tiler}

/- The loop of strict mode builds a list without overlaps. -/
theorem roundRects_neat {fuel : Nat} {rects toMerge result : List Rect}
    (hTidy : t.Tidy) (hStrict : t.strict = true) (hRects : ∀ r ∈ rects, Within t.frame r)
    (hBox : AllInBox t.cols t.rows rects) (hNeat : Neat t.frame toMerge)
    (hClean : roundClean fuel t rects toMerge = true)
    (hRound : roundRects fuel t rects toMerge = some result) : Neat t.frame result := by
  have hSound := hTidy.sound
  induction rects generalizing toMerge with
  | nil =>
    obtain rfl := Option.some.inj hRound
    exact hNeat
  | cons r rects ih =>
    rw [List.forall_mem_cons] at hRects
    rw [allInBox_cons] at hBox
    simp only [roundRects, Option.bind_eq_bind, Option.bind_eq_some_iff] at hRound
    rcases hRound with ⟨next, hAdd, hRest⟩
    unfold roundClean at hClean
    rw [hAdd, Bool.and_eq_true] at hClean
    have hTiles := roundTiles_within hSound hStrict hRects.1 hBox.1
    exact ih hRects.2 hBox.2 (add_apart hTidy.tileArea_nonneg
      (frame_solid hSound).1 hNeat hTiles hClean.1 hAdd) hClean.2 hRest

theorem iteratorNew_tidy {fuel : Nat} {t' : Tiler}
    (hTidy : t.Tidy) (hClean : iteratorClean fuel t = true)
    (hNew : iteratorNew fuel t = some t') : t'.Tidy := by
  have hSound := hTidy.sound
  have hSolid := (frame_solid hSound).1
  have hDone := (iteratorNew_spec hSound hNew).1
  unfold iteratorNew at hNew
  unfold iteratorClean at hClean
  split at hNew
  case isFalse =>
    obtain rfl := Option.some.inj hNew
    exact hTidy
  case isTrue hMerge =>
    rw [if_pos hMerge] at hClean
    split at hNew
    case isTrue hStrict =>
      rw [if_pos hStrict] at hClean
      simp only [Option.bind_eq_bind, Option.bind_eq_some_iff] at hNew
      rcases hNew with ⟨toMerge, hRound, rects, hRects, hEq⟩
      obtain rfl := Option.some.inj hEq
      rw [hRound, Bool.and_eq_true] at hClean
      have hRounded := roundRects_neat hTidy hStrict hTidy.neat.within hSound.inBox
        ⟨List.forall_mem_nil _, List.Pairwise.nil⟩ hClean.1 hRound
      exact ⟨hDone, merge_apart (v := t.frame) hSolid ⟨List.forall_mem_nil _, List.Pairwise.nil⟩
        hRounded.within hClean.2 hRects, hTidy.tileArea_nonneg⟩
    case isFalse hLoose =>
      rw [if_neg hLoose] at hClean
      simp only [Option.bind_eq_bind, Option.bind_some, Option.bind_eq_some_iff] at hNew
      rcases hNew with ⟨rects, hRects, hEq⟩
      obtain rfl := Option.some.inj hEq
      exact ⟨hDone, merge_apart (v := t.frame) hSolid ⟨List.forall_mem_nil _, List.Pairwise.nil⟩
        hTidy.neat.within hClean hRects, hTidy.tileArea_nonneg⟩

/- The iterator yields parts of what is in the list. -/
theorem yielded_apart (hTidy : t.Tidy) :
    t.yielded.Pairwise fun a b => Disjoint a.pixels b.pixels := by
  have hSound := hTidy.sound
  unfold yielded
  rw [List.pairwise_map, List.pairwise_filter, List.pairwise_map]
  refine List.Pairwise.imp_of_mem ?_ hTidy.neat.apart
  intro a b hA hB hApart hPassA hPassB
  rw [Set.disjoint_left]
  intro p hInA hInB
  have hCellA := (iteratorPass_true hSound (hSound.inBox a hA) (Prod.ext rfl hPassA)).2.1 p
  have hCellB := (iteratorPass_true hSound (hSound.inBox b hB) (Prod.ext rfl hPassB)).2.1 p
  exact hApart _ (hCellA.mp hInA).1 (hCellB.mp hInB).1

/- One call -/
theorem step_tidy {s s' : Tracked} {op : Nat × Op} (hTidy : s.tiler.Tidy)
    (hOk : Admissible op ∧ opClean s.tiler op = true)
    (hStep : step s op = some s') : s'.tiler.Tidy := by
  rcases hOk with ⟨hAdmissible, hClean⟩
  rcases op with ⟨fuel, op⟩
  cases op with
  | add r =>
    simp only [step, Option.map_eq_some_iff] at hStep
    rcases hStep with ⟨⟨t, result⟩, hCall, rfl⟩
    exact rectAdd_tidy hTidy hAdmissible hClean hCall
  | del r =>
    obtain rfl := Option.some.inj hStep
    exact rectDel_tidy hTidy hAdmissible
  | clear =>
    obtain rfl := Option.some.inj hStep
    have hSound := hTidy.sound
    exact ⟨⟨hSound.area, hSound.tileW_pos, hSound.tileH_pos, hSound.fits, allInBox_nil⟩,
      ⟨List.forall_mem_nil _, List.Pairwise.nil⟩, hTidy.tileArea_nonneg⟩
  | iterate =>
    simp only [step, Option.map_eq_some_iff] at hStep
    rcases hStep with ⟨t, hCall, rfl⟩
    exact iteratorNew_tidy hTidy hClean hCall

end

end Efl.Eina.Tiler
