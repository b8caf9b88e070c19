import Efl.Eina.Tiler.WorkLoop
import Mathlib.Data.Set.Card
import Mathlib.Data.Int.Interval
import Mathlib.Algebra.BigOperators.Group.List.Basic
import Mathlib.Tactic.Linarith
import Mathlib.Tactic.Ring

/-
  When the work loop of `rect_list_add_split_fuzzy` ends.

  Every pass makes the uncovered cells of the canvas fewer, or
  else the rectangles smaller, or fewer, except for one that
  merges two rectangles into a larger box of which each cell
  is covered already.

  Main declarations:
    * `Tiler.Work`, `Tiler.nextWork`, `Tiler.workAt`
    * `Tiler.IdleMerge`
    * `Tiler.addSplitFuzzy_ends_iff`
    * `Tiler.addSplitFuzzy_runs_forever`
-/

---
-- The Work Loop
---

namespace Efl.Eina.Tiler

open CInt Option

/- What the loop works on -/
structure Work where
  rects : List Rect
  dirty : List Rect
  oldLast : Nat
  deriving DecidableEq

/- One pass of the loop; none if `dirty` is empty or it aborts. -/
def nextWork (acceptedError : Int) (w : Work) : Option Work :=
  match w.dirty with
  | [] => none
  | r :: dirty =>
    (scan acceptedError r [] w.rects w.oldLast).map fun s =>
      { rects := if s.keepDirty then s.rects ++ [r] else s.rects
        dirty := dirty ++ s.dirty
        oldLast := s.oldLast }

/- The loop after a number of passes, if it is not over before -/
def workAt (acceptedError : Int) : Work → Nat → Option Work
  | w, 0 => some w
  | w, n + 1 => (nextWork acceptedError w).bind fun w' =>
    workAt acceptedError w' n

/- The work that an added rectangle starts with -/
def startWork (rects : List Rect) (node : Rect) : Work where
  rects := rects
  dirty := [node]
  oldLast := rects.length

/-
  The next pass puts the bounding box of two rectangles in
  their place that is larger than both, and that covers no
  new cell.
-/
def IdleMerge (acceptedError : Int) (w : Work) : Prop :=
  ∃ r dirty current,
    w.dirty = r :: dirty ∧
      mergePartner acceptedError r w.rects = some current ∧
      r.area + current.area <
        (calcOuterRectArea r current).area ∧
      ∀ p, (calcOuterRectArea r current).Covers p →
        Covered (w.rects ++ w.dirty) p

section

variable {acceptedError : Int} {w : Work}

/- A pass takes a dirty rectangle. -/
theorem dirty_of_nextWork {w' : Work}
    (hNext : nextWork acceptedError w = some w') : w.dirty ≠ [] := by
  intro hNil
  unfold nextWork at hNext
  rw [hNil] at hNext
  cases hNext

theorem workAt_succ (n : Nat) :
    workAt acceptedError w (n + 1) =
      (nextWork acceptedError w).bind fun w' =>
        workAt acceptedError w' n := rfl

theorem workAt_add (n m : Nat) :
    workAt acceptedError w (n + m) =
      (workAt acceptedError w n).bind fun w' =>
        workAt acceptedError w' m := by
  induction n generalizing w with
  | zero =>
    rw [Nat.zero_add]
    rfl
  | succ n ih =>
    rw [Nat.succ_add, workAt_succ, workAt_succ]
    cases nextWork acceptedError w with
    | none => rfl
    | some w' => exact ih

theorem addSplitFuzzyLoop_succ (fuel : Nat) (hDirty : w.dirty ≠ []) :
    addSplitFuzzyLoop acceptedError (fuel + 1) w.rects w.dirty
        w.oldLast =
      (nextWork acceptedError w).bind fun w' =>
        addSplitFuzzyLoop acceptedError fuel w'.rects w'.dirty w'.oldLast := by
  rcases w with ⟨rects, dirty, oldLast⟩
  cases dirty with
  | nil => exact absurd rfl hDirty
  | cons r dirty =>
    simp only [addSplitFuzzyLoop, nextWork]
    cases scan acceptedError r [] rects oldLast with
    | none => rfl
    | some s => rfl

theorem addSplitFuzzyLoop_nil (fuel : Nat) (hDirty : w.dirty = []) :
    addSplitFuzzyLoop acceptedError fuel w.rects w.dirty w.oldLast = some (w.rects, w.oldLast) := by
  rw [hDirty]
  cases fuel <;> rfl

/- The loop ends when a pass leaves nothing dirty. -/
theorem addSplitFuzzyLoop_iff {result : List Rect × Nat} :
    (∃ fuel, addSplitFuzzyLoop acceptedError fuel w.rects
      w.dirty w.oldLast = some result) ↔
      ∃ n w', workAt acceptedError w n = some w' ∧
        w'.dirty = [] ∧ result = (w'.rects, w'.oldLast) := by
  constructor
  · rintro ⟨fuel, hLoop⟩
    induction fuel generalizing w with
    | zero =>
      cases hDirty : w.dirty with
      | nil =>
        rw [addSplitFuzzyLoop_nil 0 hDirty] at hLoop
        exact ⟨0, w, rfl, hDirty, (some.inj hLoop).symm⟩
      | cons r dirty =>
        rw [hDirty] at hLoop
        simp [addSplitFuzzyLoop] at hLoop
    | succ fuel ih =>
      by_cases hDirty : w.dirty = []
      · rw [addSplitFuzzyLoop_nil _ hDirty] at hLoop
        exact ⟨0, w, rfl, hDirty, (some.inj hLoop).symm⟩
      · rw [addSplitFuzzyLoop_succ fuel hDirty] at hLoop
        rcases bind_eq_some_iff.mp hLoop with ⟨w', hNext, hRest⟩
        rcases ih hRest with ⟨n, w'', hAt, hEnd⟩
        refine ⟨n + 1, w'', ?_, hEnd⟩
        unfold workAt
        rw [hNext]
        exact hAt
  · rintro ⟨n, w', hAt, hEnd, rfl⟩
    induction n generalizing w with
    | zero =>
      obtain rfl := some.inj hAt
      exact ⟨0, addSplitFuzzyLoop_nil 0 hEnd⟩
    | succ n ih =>
      unfold workAt at hAt
      rcases bind_eq_some_iff.mp hAt with ⟨next, hNext, hRest⟩
      rcases ih hRest with ⟨fuel, hLoop⟩
      have hDirty := dirty_of_nextWork hNext
      refine ⟨fuel + 1, ?_⟩
      rw [addSplitFuzzyLoop_succ fuel hDirty, hNext]
      exact hLoop

end

---
-- Areas
---

def areas (rects : List Rect) : Int :=
  (rects.map Rect.area).sum

@[simp] theorem areas_nil : areas [] = 0 := rfl

@[simp] theorem areas_cons (r : Rect) (rects : List Rect) :
    areas (r :: rects) = r.area + areas rects := by
  simp [areas]

@[simp] theorem areas_append (rects others : List Rect) :
    areas (rects ++ others) = areas rects + areas others := by
  simp [areas]

theorem areas_perm {rects others : List Rect}
    (hPerm : rects.Perm others) : areas rects = areas others := (hPerm.map Rect.area).sum_eq

section

variable {v a b : Rect} {rects : List Rect}

section

variable (hCanvas : Canvas v)

include hCanvas

theorem areas_nonneg (hRects : ∀ r ∈ rects, Within v r) : 0 ≤ areas rects := by
  induction rects with
  | nil => exact le_refl 0
  | cons r rects ih =>
    rw [List.forall_mem_cons] at hRects
    have hPos := hRects.1.area_pos hCanvas
    have hRest := ih hRects.2
    rw [areas_cons]
    omega

theorem areas_strip {left top right bottom : Int} (hLeft : v.left ≤ left) (hTop : v.top ≤ top)
    (hRight : right ≤ v.right) (hBottom : bottom ≤ v.bottom) :
    areas (strip left top right bottom) = max 0 (right - left) * max 0 (bottom - top) := by
  have hWithin := strip_within hCanvas.solid hLeft hTop hRight hBottom
  unfold strip at hWithin ⊢
  split
  case isTrue hSome =>
    rw [if_pos hSome] at hWithin
    have hArea := (hWithin _ (List.mem_singleton.mpr rfl)).area_eq hCanvas
    rw [areas_cons, areas_nil, add_zero, hArea, max_eq_right (by omega), max_eq_right (by omega)]
  case isFalse hNone =>
    rw [areas_nil, eq_comm, Int.mul_eq_zero]
    omega

/- Cutting a rectangle around one that it meets loses area. -/
theorem areas_surround
    (hA : Within v a) (hB : Within v b) (hMeets : Meets a b) : areas (surround a b) < b.area := by
  rcases Within.spans hCanvas.solid hA hB with ⟨⟨h₁, h₂, h₃, h₄⟩, ⟨h₅, h₆, h₇, h₈⟩, -, -⟩
  rcases hMeets with ⟨m₁, m₂, m₃, m₄⟩
  rw [hB.area_eq hCanvas]
  unfold surround
  rw [areas_append, areas_append, areas_append,
    areas_strip hCanvas (by omega) (by omega) (by omega) (by omega),
    areas_strip hCanvas (by omega) (by omega) (by omega) (by omega),
    areas_strip hCanvas (by omega) (by omega) (by omega) (by omega),
    areas_strip hCanvas (by omega) (by omega) (by omega) (by omega)]
  have hWidth : max 0 (b.right - b.left) = b.right - b.left := by
    omega
  have hHigh : max 0 (a.top - b.top) + max 0 (b.bottom - a.bottom) +
      max 0 (min a.bottom b.bottom - max a.top b.top) = b.bottom - b.top := by
    omega
  have hWide : max 0 (a.left - b.left) + max 0 (b.right - a.right) < b.right - b.left := by
    omega
  have hBand : 0 < max 0 (min a.bottom b.bottom - max a.top b.top) := by
    omega
  rw [hWidth, ← hHigh]
  nlinarith only [mul_lt_mul_of_pos_right hWide hBand]

/- Two rectangles side by side that meet have less together. -/
theorem areas_sideBySide (hA : Within v a) (hB : Within v b) (hMeets : Meets a b)
    (hTop : b.top ≤ a.top) (hBottom : a.bottom ≤ b.bottom) :
    areas (bands a b ++ sideBySide b a) < b.area + a.area := by
  rcases Within.spans hCanvas.solid hA hB with ⟨⟨h₁, h₂, h₃, h₄⟩, ⟨h₅, h₆, h₇, h₈⟩, -, -⟩
  rcases hMeets with ⟨m₁, m₂, m₃, m₄⟩
  rw [hB.area_eq hCanvas, hA.area_eq hCanvas]
  unfold bands sideBySide
  rw [areas_append, areas_append, areas_strip hCanvas (by omega) (by omega) (by omega) (by omega),
    areas_strip hCanvas (by omega) (by omega) (by omega) (by omega),
    areas_strip hCanvas (by omega) (by omega) (by omega) (by omega)]
  have hWidth : max 0 (b.right - b.left) = b.right - b.left := by
    omega
  have hAbove : max 0 (a.top - b.top) = a.top - b.top := by
    omega
  have hBelow : max 0 (b.bottom - a.bottom) = b.bottom - a.bottom := by
    omega
  have hBand : max 0 (a.bottom - a.top) = a.bottom - a.top := by
    omega
  have hWide : max 0 (max b.right a.right - min b.left a.left) <
      (b.right - b.left) + (a.right - a.left) := by
    omega
  have hPos : 0 < a.bottom - a.top := by
    omega
  rw [hWidth, hAbove, hBelow, hBand]
  nlinarith only [mul_lt_mul_of_pos_right hWide hPos]

end

end

---
-- One Pass
---

open List

/- All rectangles of the work -/
def Work.all (w : Work) : List Rect :=
  w.rects ++ w.dirty

/- What gets smaller when no new cell is covered -/
def potential (w : Work) : Int :=
  10 * areas w.all + 2 * w.all.length + w.dirty.length

/- The cells of the canvas that no rectangle covers -/
def uncovered (v : Rect) (w : Work) : Set Pixel :=
  { p | v.Covers p ∧ ¬ Covered w.all p }

/- The pass covers a cell that was not covered before. -/
def Grows (v : Rect) (w w' : Work) : Prop :=
  ∃ p, v.Covers p ∧ Covered w'.all p ∧ ¬ Covered w.all p

/- What a pass keeps, and what it makes smaller -/
structure Progress (acceptedError : Int) (v : Rect) (w w' : Work) : Prop where
  within : ∀ q ∈ w'.all, Within v q
  covered : ∀ p, Covered w.all p → Covered w'.all p
  smaller : potential w' < potential w ∨ Grows v w w' ∨
    IdleMerge acceptedError w

theorem covered_perm {rects others : List Rect} {p : Pixel}
    (hPerm : rects.Perm others) : Covered rects p ↔ Covered others p := by
  unfold Covered
  simp only [hPerm.mem_iff]

section

variable {acceptedError : Int} {v r : Rect}
  {rects dirty s gone : List Rect} {oldLast : Nat}

/- The nodes that are removed because `r` contains them -/
theorem covered_gone (hGone : ∀ q ∈ gone, Inside q r)
    {p : Pixel} (hCovered : Covered gone p) : r.Covers p := by
  rcases hCovered with ⟨q, hMem, hIn⟩
  exact (hGone q hMem).covers hIn

theorem potential_eq (rects dirty : List Rect) (oldLast : Nat) :
    potential ⟨rects, dirty, oldLast⟩ =
      10 * (areas rects + areas dirty) + 2 * (rects.length + dirty.length) + dirty.length := by
  unfold potential Work.all
  simp only [areas_append, length_append]
  omega

variable (hCanvas : Canvas v) (hRects : ∀ q ∈ rects, Within v q)
  (hDirty : ∀ q ∈ dirty, Within v q)

include hCanvas hRects hDirty

/- The new rectangle goes to the list. -/
theorem progress_keep (hR : Within v r) (hPerm : rects.Perm (s ++ gone))
    (hGone : ∀ q ∈ gone, Inside q r) (oldLast oldLast' : Nat) :
    Progress acceptedError v ⟨rects, r :: dirty, oldLast⟩ ⟨s ++ [r], dirty, oldLast'⟩ := by
  have hAll : ∀ q ∈ s ++ gone, Within v q := fun q hMem => hRects q (hPerm.mem_iff.mpr hMem)
  rw [forall_mem_append] at hAll
  have hNonneg := areas_nonneg hCanvas hAll.2
  have hSum := areas_perm hPerm
  have hLength := hPerm.length_eq
  rw [areas_append] at hSum
  rw [length_append] at hLength
  refine ⟨?_, ?_, Or.inl ?_⟩
  · unfold Work.all
    simp only [forall_mem_append, forall_mem_singleton]
    exact ⟨⟨hAll.1, hR⟩, hDirty⟩
  · intro p hCovered
    unfold Work.all at hCovered ⊢
    simp only [covered_append, covered_cons, covered_nil,
      or_false, covered_perm hPerm] at hCovered ⊢
    have hOver := covered_gone hGone (p := p)
    tauto
  · simp only [potential_eq, areas_append, areas_cons, areas_nil,
      length_append, length_cons, length_nil]
    omega

/- The new rectangle is cut, or dropped, and the list stays. -/
theorem progress_cut {pieces : List Rect}
    (hPerm : rects.Perm (s ++ gone)) (hGone : ∀ q ∈ gone, Inside q r)
    (hPieces : ∀ q ∈ pieces, Within v q)
    (hCovers : ∀ p, r.Covers p → Covered s p ∨ Covered pieces p) (hArea : areas pieces < r.area)
    (hLength : pieces.length ≤ 4) (oldLast oldLast' : Nat) :
    Progress acceptedError v ⟨rects, r :: dirty, oldLast⟩ ⟨s, dirty ++ pieces, oldLast'⟩ := by
  have hAll : ∀ q ∈ s ++ gone, Within v q := fun q hMem => hRects q (hPerm.mem_iff.mpr hMem)
  rw [forall_mem_append] at hAll
  have hNonneg := areas_nonneg hCanvas hAll.2
  have hSum := areas_perm hPerm
  have hCount := hPerm.length_eq
  rw [areas_append] at hSum
  rw [length_append] at hCount
  refine ⟨?_, ?_, Or.inl ?_⟩
  · unfold Work.all
    simp only [forall_mem_append]
    exact ⟨hAll.1, hDirty, hPieces⟩
  · intro p hCovered
    unfold Work.all at hCovered ⊢
    simp only [covered_append, covered_cons, covered_perm hPerm] at hCovered ⊢
    have hOver := covered_gone hGone (p := p)
    have hCut := hCovers p
    tauto
  · simp only [potential_eq, areas_append, areas_cons, length_append, length_cons]
    omega

/- The new rectangle and one of the list are replaced. -/
theorem progress_join {current : Rect} {pieces : List Rect} (hPerm :
    rects.Perm (s ++ current :: gone)) (hGone : ∀ q ∈ gone, Inside q r)
    (hPieces : ∀ q ∈ pieces, Within v q) (hCovers : ∀ p, r.Covers p ∨
    current.Covers p → Covered pieces p) (hSmaller : 10 * areas pieces +
    3 * pieces.length < 10 * (r.area + current.area) + 5 ∨
    Grows v ⟨rects, r :: dirty, oldLast⟩ ⟨s, dirty ++ pieces, oldLast⟩ ∨
    IdleMerge acceptedError ⟨rects, r :: dirty, oldLast⟩)
    (oldLast' : Nat) :
    Progress acceptedError v ⟨rects, r :: dirty, oldLast⟩ ⟨s, dirty ++ pieces, oldLast'⟩ := by
  have hAll : ∀ q ∈ s ++ current :: gone, Within v q :=
    fun q hMem => hRects q (hPerm.mem_iff.mpr hMem)
  rw [forall_mem_append, forall_mem_cons] at hAll
  have hNonneg := areas_nonneg hCanvas hAll.2.2
  have hSum := areas_perm hPerm
  have hCount := hPerm.length_eq
  rw [areas_append, areas_cons] at hSum
  rw [length_append, length_cons] at hCount
  refine ⟨?_, ?_, ?_⟩
  · unfold Work.all
    simp only [forall_mem_append]
    exact ⟨hAll.1, hDirty, hPieces⟩
  · intro p hCovered
    unfold Work.all at hCovered ⊢
    simp only [covered_append, covered_cons, covered_perm hPerm] at hCovered ⊢
    have hOver := covered_gone hGone (p := p)
    have hJoin := hCovers p
    tauto
  · rcases hSmaller with hLess | hMore | hIdle
    · left
      simp only [potential_eq, areas_append, areas_cons, length_append, length_cons]
      omega
    · exact Or.inr (Or.inl hMore)
    · exact Or.inr (Or.inr hIdle)

end

---
-- Runs
---

section

variable {acceptedError : Int} {v : Rect} (hError : 0 ≤ acceptedError)
  (hCanvas : Canvas v)

theorem uncovered_finite (v : Rect) (w : Work) : (uncovered v w).Finite := by
  refine Set.Finite.subset ((Set.finite_Ico v.left v.right).prod (Set.finite_Ico v.top v.bottom)) ?_
  rintro p ⟨hIn, -⟩
  exact ⟨⟨hIn.1, hIn.2.1⟩, hIn.2.2⟩

theorem potential_nonneg {w : Work} (hCanvas : Canvas v)
    (hAll : ∀ q ∈ w.all, Within v q) : 0 ≤ potential w := by
  have hAreas := areas_nonneg hCanvas hAll
  unfold potential
  omega

include hError hCanvas

/- A pass does not abort, and gets on. -/
theorem nextWork_progress (w : Work)
    (hAll : ∀ q ∈ w.all, Within v q) (hDirty : w.dirty ≠ []) :
    ∃ w', nextWork acceptedError w = some w' ∧ Progress acceptedError v w w' := by
  rcases w with ⟨rects, dirty, oldLast⟩
  cases dirty with
  | nil => exact absurd rfl hDirty
  | cons r dirty =>
    unfold Work.all at hAll
    rw [forall_mem_append, forall_mem_cons] at hAll
    rcases hAll with ⟨hRects, hR, hRest⟩
    rcases scan_outcome [] oldLast hError hCanvas.solid hR hRects with ⟨s, hScan, hOutcome⟩
    unfold nextWork
    dsimp only
    rw [hScan]
    refine ⟨_, rfl, ?_⟩
    cases hOutcome with
    | keep hPerm hGone =>
      dsimp only
      rw [if_pos rfl, append_nil]
      exact progress_keep hCanvas hRects hRest hR hPerm hGone
        _ _
    | @inside s gone _ current hMem hInside hPerm hGone =>
      refine progress_cut hCanvas hRects hRest hPerm hGone
        (forall_mem_nil _) ?_ (hR.area_pos hCanvas) (Nat.zero_le 4) _ _
      intro p hCovers
      exact Or.inl ⟨current, hMem, hInside.covers hCovers⟩
    | @split s gone _ current hMem hMeets hPerm hGone =>
      have hCurrent := hRects current (hPerm.mem_iff.mpr (mem_append_left _ hMem))
      refine progress_cut hCanvas hRects hRest hPerm hGone
        (surround_within hCanvas.solid hCurrent hR hMeets) ?_
        (areas_surround hCanvas hCurrent hR hMeets) (surround_length _ _) _ _
      intro p hCovers
      by_cases hIn : current.Covers p
      · exact Or.inl ⟨current, hMem, hIn⟩
      · exact Or.inr ((covered_surround hMeets p).mpr ⟨hCovers, hIn⟩)
    | @side s gone _ current hMeets hTop hBottom hPerm hGone =>
      have hCurrent := hRects current (hPerm.mem_iff.mpr (by simp))
      have hLess := areas_sideBySide hCanvas hCurrent hR hMeets hTop hBottom
      rcases sideBySide_within hCanvas.solid hCurrent hR with ⟨hWithin, hLength⟩
      refine progress_join hCanvas hRects hRest hPerm hGone hWithin
        (covered_sideBySide hTop hMeets) (Or.inl ?_) _
      omega
    | @merge s gone _ current hPartner hPerm hGone =>
      have hCurrent := hRects current (hPerm.mem_iff.mpr (by simp))
      rcases outer_within hCanvas.solid hR hCurrent with ⟨hWithin, hCovers⟩
      refine progress_join hCanvas hRects hRest hPerm hGone
        (by simpa using hWithin) (fun p hp => by
          simpa using hCovers p hp) ?_ _
      -- A box that is larger covers a new cell, or idles.
      rw [areas_cons, areas_nil, add_zero, length_singleton]
      by_cases hLarger : r.area + current.area < (calcOuterRectArea r current).area
      · right
        by_cases hIdle : ∀ p,
            (calcOuterRectArea r current).Covers p →
              Covered (rects ++ r :: dirty) p
        · exact Or.inr ⟨r, dirty, current, rfl, hPartner, hLarger, hIdle⟩
        · left
          push Not at hIdle
          rcases hIdle with ⟨p, hIn, hNot⟩
          refine ⟨p, ?_, ?_, hNot⟩
          · exact Inside.covers ⟨hWithin.left_ge, hWithin.right_le,
              hWithin.top_ge, hWithin.bottom_le⟩ hIn
          · unfold Work.all
            simp [hIn]
      · left
        omega

theorem workAt_within {w w' : Work} {n : Nat} (hAll : ∀ q ∈ w.all, Within v q)
    (hAt : workAt acceptedError w n = some w') : ∀ q ∈ w'.all, Within v q := by
  induction n generalizing w with
  | zero =>
    obtain rfl := some.inj hAt
    exact hAll
  | succ n ih =>
    rw [workAt_succ] at hAt
    rcases bind_eq_some_iff.mp hAt with ⟨next, hNext, hRest⟩
    have hDirty := dirty_of_nextWork hNext
    rcases nextWork_progress hError hCanvas w hAll hDirty with ⟨next', hNext', hProgress⟩
    rw [hNext] at hNext'
    obtain rfl := some.inj hNext'
    exact ih hProgress.within hRest

/- A run that is over ended with nothing dirty. -/
theorem ended_of_none {w : Work} {n : Nat} (hAll : ∀ q ∈ w.all, Within v q)
    (hAt : workAt acceptedError w n = none) :
    ∃ m w', workAt acceptedError w m = some w' ∧ w'.dirty = [] := by
  induction n generalizing w with
  | zero => cases hAt
  | succ n ih =>
    by_cases hDirty : w.dirty = []
    · exact ⟨0, w, rfl, hDirty⟩
    · rcases nextWork_progress hError hCanvas w hAll hDirty with ⟨next, hNext, hProgress⟩
      rw [workAt_succ, hNext] at hAt
      rcases ih hProgress.within hAt with ⟨m, w', hRun, hEnd⟩
      refine ⟨m + 1, w', ?_, hEnd⟩
      rw [workAt_succ, hNext]
      exact hRun

/-
  Without idle merges the loop ends: first the uncovered
  cells run out, and then the potential.
-/
theorem ends_of_no_idle (w : Work) (hAll : ∀ q ∈ w.all, Within v q)
    (hBusy : ∀ n w', workAt acceptedError w n = some w' →
    ¬ IdleMerge acceptedError w') : ∃ n w', workAt acceptedError w n = some w' ∧ w'.dirty = [] := by
  induction hCells : (uncovered v w).ncard using Nat.strong_induction_on generalizing w with
  | _ cells ihCells =>
    induction hRest : (potential w).toNat using Nat.strong_induction_on generalizing w with
    | _ rest ihRest =>
      by_cases hDirty : w.dirty = []
      · exact ⟨0, w, rfl, hDirty⟩
      rcases nextWork_progress hError hCanvas w hAll hDirty with
        ⟨next, hNext, hWithin, hCovered, hSmaller⟩
      have hBusy' : ∀ n w',
          workAt acceptedError next n = some w' → ¬ IdleMerge acceptedError w' := by
        intro n w' hAt
        apply hBusy (n + 1)
        rw [workAt_succ, hNext]
        exact hAt
      have hLater : (∃ n w',
          workAt acceptedError next n = some w' ∧
            w'.dirty = []) →
          ∃ n w', workAt acceptedError w n = some w' ∧ w'.dirty = [] := by
        rintro ⟨n, w', hAt, hEnd⟩
        refine ⟨n + 1, w', ?_, hEnd⟩
        rw [workAt_succ, hNext]
        exact hAt
      have hSubset : uncovered v next ⊆ uncovered v w :=
        fun p hp => ⟨hp.1, fun hIn => hp.2 (hCovered p hIn)⟩
      have hFinite := uncovered_finite v w
      have hLe := Set.ncard_le_ncard hSubset hFinite
      apply hLater
      rcases hSmaller with hLess | ⟨p, hIn, hNew, hOld⟩ | hIdle
      · by_cases hSame :
            (uncovered v next).ncard = (uncovered v w).ncard
        · have hNonneg := potential_nonneg hCanvas hWithin
          refine ihRest (potential next).toNat (by omega) next hWithin hBusy' (by omega) rfl
        · exact ihCells (uncovered v next).ncard (by omega) next hWithin hBusy' rfl
      · have hLt : (uncovered v next).ncard < (uncovered v w).ncard := by
          refine Set.ncard_lt_ncard ⟨hSubset, ?_⟩ hFinite
          intro hBack
          exact (hBack ⟨hIn, hOld⟩).2 hNew
        exact ihCells (uncovered v next).ncard (by omega) next hWithin hBusy' rfl
      · exact absurd hIdle (hBusy 0 w rfl)

/- The loop ends if idle merges do. -/
theorem ends_iff_idle_ends (w : Work) (hAll : ∀ q ∈ w.all, Within v q) :
    (∃ n w', workAt acceptedError w n = some w' ∧
      w'.dirty = []) ↔
      ∃ n, ∀ m w', n ≤ m → workAt acceptedError w m = some w' → ¬ IdleMerge acceptedError w' := by
  constructor
  · rintro ⟨n, last, hAt, hEnd⟩
    refine ⟨n, ?_⟩
    intro m w' hLe hRun
    obtain ⟨k, rfl⟩ := Nat.exists_eq_add_of_le hLe
    rw [workAt_add, hAt, bind_some] at hRun
    rintro ⟨r, dirty, current, hDirty, -⟩
    cases k with
    | zero =>
      obtain rfl := some.inj hRun
      rw [hEnd] at hDirty
      cases hDirty
    | succ k =>
      rw [workAt_succ] at hRun
      rcases bind_eq_some_iff.mp hRun with ⟨next, hNext, -⟩
      exact dirty_of_nextWork hNext hEnd
  · rintro ⟨n, hBusy⟩
    cases hAt : workAt acceptedError w n with
    | none => exact ended_of_none hError hCanvas hAll hAt
    | some mid =>
      have hMid := workAt_within hError hCanvas hAll hAt
      rcases ends_of_no_idle hError hCanvas mid hMid (by
          intro m w' hRun
          apply hBusy (n + m) w' (Nat.le_add_right n m)
          rw [workAt_add, hAt]
          exact hRun) with ⟨m, last, hRun, hEnd⟩
      refine ⟨n + m, last, ?_, hEnd⟩
      rw [workAt_add, hAt]
      exact hRun

end

/- Adding a rectangle ends as the loop does. -/
theorem addSplitFuzzy_iff (rects : List Rect) (node : Rect)
    (acceptedError : Int) :
    (∃ fuel result, addSplitFuzzy fuel rects node acceptedError =
        some result) ↔
      ∃ n w, workAt acceptedError (startWork rects node) n = some w ∧ w.dirty = [] := by
  unfold addSplitFuzzy
  cases rects with
  | nil => refine iff_of_true ⟨0, _, rfl⟩ ⟨1, ⟨[node], [], 0⟩, rfl, rfl⟩
  | cons r rects =>
    simp only [isEmpty_cons, Bool.false_eq_true, if_false]
    constructor
    · rintro ⟨fuel, result, hLoop⟩
      rcases addSplitFuzzyLoop_iff (w := startWork (r :: rects) node)
          |>.mp ⟨fuel, hLoop⟩ with ⟨n, w, hAt, hEnd, -⟩
      exact ⟨n, w, hAt, hEnd⟩
    · rintro ⟨n, w, hAt, hEnd⟩
      rcases addSplitFuzzyLoop_iff (w := startWork (r :: rects) node)
          |>.mpr ⟨n, w, hAt, hEnd, rfl⟩ with ⟨fuel, hLoop⟩
      exact ⟨fuel, _, hLoop⟩

/- A loop that comes back to where it was does not end. -/
theorem not_ended_of_cycle {acceptedError : Int} {w : Work} {k : Nat}
    (hPos : 0 < k) (hCycle : workAt acceptedError w k = some w) :
    ¬ ∃ n w', workAt acceptedError w n = some w' ∧ w'.dirty = [] := by
  rintro ⟨n, last, hAt, hEnd⟩
  have hRound : ∀ m, workAt acceptedError w (k * m) = some w := by
    intro m
    induction m with
    | zero => rfl
    | succ m ih => rw [Nat.mul_succ, workAt_add, ih, bind_some, hCycle]
  have hLate := hRound (n + 1)
  have hLt : n + 1 ≤ k * (n + 1) := Nat.le_mul_of_pos_left _ hPos
  obtain ⟨j, hEq⟩ := Nat.exists_eq_add_of_le hLt
  rw [hEq, Nat.add_assoc, workAt_add, hAt, bind_some, Nat.add_comm, workAt_succ] at hLate
  rcases bind_eq_some_iff.mp hLate with ⟨next, hNext, -⟩
  exact dirty_of_nextWork hNext hEnd

end Efl.Eina.Tiler
