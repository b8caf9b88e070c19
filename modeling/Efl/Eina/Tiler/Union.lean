import Efl.Eina.Tiler.Coverage

/-
  Runs of several tilers that are joined and subtracted.

  The reference set of a tiler is now also joined with what
  another tiler yields, or diminished by it.  The rectangle
  that a tiler remembers as added is stale when a subtraction
  has taken a pixel of it, or when a union has left a
  rectangle there that it did not add.

  Main declarations:
    * `Tiler.Mixed`
    * `Tiler.MixedOp`
    * `Tiler.addAll_spec`
    * `Tiler.delAll_spec`
-/

---
-- Union and Subtract
---

namespace Efl.Eina.Tiler

open CInt Option Function

/-
  A rectangle that the iterator of a source with this
  rounding yields, in an area of `w` times `h` pixels.
-/
structure Yields (rounding : Bool) (a r : Rectangle) : Prop where
  inside : r.Inside a
  even : rounding = true → r.x % 2 = 0 ∧ r.y % 2 = 0

variable {t : Tiler} {r : Rectangle}

theorem yields_of_mem (hSound : t.Sound) (hMem : r ∈ t.yielded) : Yields t.rounding t.area r := by
  rcases mem_yielded.mp hMem with ⟨cur, hCur, hPass⟩
  rcases iteratorPass_true hSound (hSound.inBox cur hCur) hPass with ⟨hInside, -, hEven⟩
  exact ⟨hInside, hEven⟩

variable {rounding : Bool} {a : Rectangle}

/- What is passed on is one smaller with rounding. -/
theorem shrink_spec (hW : a.w ≤ intMax) (hH : a.h ≤ intMax)
    (hYields : Yields rounding a r) :
    (shrink rounding r).x = r.x ∧
      (shrink rounding r).y = r.y ∧
      (shrink rounding r).w =
        (if rounding then r.w - 1 else r.w) ∧
      (shrink rounding r).h = (if rounding then r.h - 1 else r.h) := by
  rcases hYields with ⟨⟨h₁, h₂, h₃, h₄, h₅, h₆⟩, -⟩
  unfold shrink
  cases rounding with
  | false => exact ⟨rfl, rfl, rfl, rfl⟩
  | true =>
    exact ⟨rfl, rfl, wrap_of_le hW (by omega) (by omega), wrap_of_le hH (by omega) (by omega)⟩

/- What is passed on lies in the area. -/
theorem placed_shrink (hArea : t.area.IsArea)
    (hYields : Yields rounding t.area r) : t.Placed (shrink rounding r) := by
  rcases shrink_spec hArea.w_le hArea.h_le hYields with ⟨hX, hY, hW, hH⟩
  rcases hYields with ⟨⟨h₁, h₂, h₃, h₄, h₅, h₆⟩, -⟩
  constructor <;> omega

/- Its pixels belong to the rectangle. -/
theorem pixels_shrink (hW : a.w ≤ intMax) (hH : a.h ≤ intMax)
    (hYields : Yields rounding a r) : (shrink rounding r).pixels ⊆ r.pixels := by
  rcases shrink_spec hW hH hYields with ⟨hX, hY, hW, hH⟩
  intro p hp
  rw [Rectangle.mem_pixels, hX, hY, hW, hH] at hp
  rw [Rectangle.mem_pixels]
  cases rounding with
  | false => exact hp
  | true =>
    simp only [if_true] at hp
    omega

/-
  The splitter shows a rectangle that is passed on, if the
  destination rounds when the source does: the cells of a
  smaller rectangle with an even corner reach one pixel more.
-/
theorem splitterRectAdd_shrink {fuel : Nat} {t' : Tiler} (hSound : t.Sound)
    (hRounding : rounding = true → t.rounding = true) (hYields : Yields rounding t.area r)
    (hAdd : splitterRectAdd fuel t (shrink rounding r) = some t') :
    t'.Sound ∧
      t' = { t with rects := t'.rects } ∧
      (∀ p, t.Shows p → t'.Shows p) ∧ ∀ p ∈ r.pixels, t'.Shows p := by
  rcases splitterRectAdd_spec hSound
    (placed_shrink hSound.area hYields) hAdd with ⟨hDone, hFrame, hOld, hNew⟩
  refine ⟨hDone, hFrame, hOld, ?_⟩
  rcases shrink_spec hSound.area.w_le hSound.area.h_le hYields with ⟨hX, hY, hW, hH⟩
  rw [hX, hY, hW, hH] at hNew
  intro p hp
  rw [Rectangle.mem_pixels] at hp
  have hEven := hYields.even
  apply hNew p hp.1 _ hp.2.2.1
  · cases rounding with
    | false => exact Or.inl hp.2.2.2
    | true =>
      right
      refine ⟨hRounding rfl, (hEven rfl).2, ?_⟩
      simp only [if_true]
      omega
  · cases rounding with
    | false => exact Or.inl hp.2.1
    | true =>
      right
      refine ⟨hRounding rfl, (hEven rfl).1, ?_⟩
      simp only [if_true]
      omega

/- A union shows all rectangles that it adds. -/
theorem addAll_spec {fuel : Nat} {t' : Tiler} {rs : List Rectangle}
    (hSound : t.Sound) (hRounding : rounding = true → t.rounding = true)
    (hYields : ∀ r ∈ rs, Yields rounding t.area r)
    (hAdd : addAll fuel rounding t rs = some t') :
    t'.Sound ∧
      t' = { t with rects := t'.rects } ∧
      (∀ p, t.Shows p → t'.Shows p) ∧ ∀ p, PixelsOf rs p → t'.Shows p := by
  induction rs generalizing t with
  | nil =>
    obtain rfl := some.inj hAdd
    exact ⟨hSound, rfl, fun p hp => hp, fun p hp => by simp [PixelsOf] at hp⟩
  | cons r rs ih =>
    simp only [addAll, bind_eq_bind, bind_eq_some_iff] at hAdd
    rcases hAdd with ⟨t₁, hFirst, hRest⟩
    rcases splitterRectAdd_shrink hSound hRounding
      (hYields r (by simp)) hFirst with ⟨hSound₁, hFrame₁, hOld₁, hNew₁⟩
    have hArea₁ : t₁.area = t.area := by rw [hFrame₁]
    have hRounding₁ : t₁.rounding = t.rounding := by
      rw [hFrame₁]
    rcases ih hSound₁ (by rwa [hRounding₁]) (fun r' hr => by
          rw [hArea₁]
          exact hYields r' (by simp [hr])) hRest with ⟨hDone, hFrame, hOld, hNew⟩
    refine ⟨hDone, ?_, fun p hp => hOld p (hOld₁ p hp), ?_⟩
    · rw [hFrame, hFrame₁]
    · intro p hp
      rcases hp with ⟨r', hMem, hPixel⟩
      rcases List.mem_cons.mp hMem with rfl | hMem
      · exact hOld p (hNew₁ p hPixel)
      · exact hNew p ⟨r', hMem, hPixel⟩

/- A subtraction keeps what is outside its rectangles. -/
theorem delAll_spec {rs : List Rectangle} (hSound : t.Sound)
    (hArea : a.IsArea) (hYields : ∀ r ∈ rs, Yields rounding a r) :
    (delAll rounding t rs).Sound ∧
      (∃ rects needMerge, delAll rounding t rs =
        { t with
          rects := rects
          needMerge := needMerge }) ∧
      ∀ p, t.Shows p → PixelsOf rs p ∨ (delAll rounding t rs).Shows p := by
  induction rs generalizing t with
  | nil =>
    exact ⟨hSound, ⟨t.rects, t.needMerge, rfl⟩, fun p hp => Or.inr hp⟩
  | cons r rs ih =>
    have hR := hYields r (by simp)
    have hPlaced := placed_shrink (t := { t with area := a }) hArea hR
    have hRight := hPlaced.right_le
    have hBottom := hPlaced.bottom_le
    have hWidth := hArea.w_le
    have hHeight := hArea.h_le
    dsimp only at hRight hBottom
    rcases splitterRectDel_spec hSound hPlaced.x_nonneg hPlaced.y_nonneg
        (by omega) (by omega) hPlaced.w_nonneg hPlaced.h_nonneg with
      ⟨hSound₁, ⟨rects₁, needMerge₁, hFrame₁⟩, hKept₁⟩
    rcases ih hSound₁ (fun r' hr => hYields r' (by simp [hr])) with
      ⟨hDone, ⟨rects, needMerge, hFrame⟩, hKept⟩
    refine ⟨hDone, ⟨rects, needMerge, ?_⟩, ?_⟩
    · unfold delAll
      rw [hFrame, hFrame₁]
    · intro p hp
      rcases hKept₁ p hp with h | h
      · exact Or.inl ⟨r, by simp, pixels_shrink hWidth hHeight hR h⟩
      · rcases hKept p h with ⟨r', hMem, h⟩ | h
        · exact Or.inl ⟨r', by simp [hMem], h⟩
        · exact Or.inr h

---
-- What the Calls Leave
---

/- The destination with the area that a union gives it. -/
def enlarge (dst src : Tiler) : Tiler :=
  { dst with
    area :=
      { dst.area with
        w := max src.area.w dst.area.w
        h := max src.area.h dst.area.h } }

theorem axisCells_mono {strict : Bool} {m n tile : Int}
    (hTile : 0 < tile) (hLe : m ≤ n) :
    axisCells rounding strict m tile ≤ axisCells rounding strict n tile := by
  have hHalf : (if rounding then m / 2 + 1 else m) ≤ (if rounding then n / 2 + 1 else n) := by
    split <;> omega
  unfold axisCells
  dsimp only
  split
  · exact roundUp_mono hTile hHalf
  · exact hHalf

variable {dst src : Tiler}

theorem enlarge_spec (hDst : dst.Sound) (hSrc : src.Sound)
    (hFits : (enlarge dst src).Fits) :
    (enlarge dst src).Sound ∧
      (∀ r : Rectangle, r.Inside src.area →
        r.Inside (enlarge dst src).area) ∧
      ∀ p ∈ dst.area.pixels, p ∈ (enlarge dst src).area.pixels := by
  rcases hDst with ⟨⟨d₁, d₂, d₃, d₄, d₅, d₆⟩, hTileW, hTileH, -, hBox⟩
  rcases hSrc.area with ⟨s₁, s₂, s₃, s₄, s₅, s₆⟩
  have hArea : (enlarge dst src).area.IsArea := by
    unfold enlarge
    constructor <;> dsimp only <;> omega
  refine ⟨⟨hArea, hTileW, hTileH, hFits, ?_⟩, ?_, ?_⟩
  · exact AllInBox.mono hBox (axisCells_mono hTileW (Int.le_max_right _ _))
      (axisCells_mono hTileH (Int.le_max_right _ _))
  · rintro r ⟨h₁, h₂, h₃, h₄, h₅, h₆⟩
    exact ⟨h₁, h₂, h₃, h₄, Int.le_trans h₅ (Int.le_max_left _ _),
      Int.le_trans h₆ (Int.le_max_left _ _)⟩
  · intro p hp
    unfold enlarge
    simp only [Rectangle.mem_pixels] at hp ⊢
    omega

/- The rectangle that the last pass leaves, if passed on. -/
theorem mem_yielded_of_lastPass (hLast : t.lastPass = some (r, true)) : r ∈ t.yielded := by
  have hMem := List.mem_of_getLast? hLast
  rcases List.mem_map.mp hMem with ⟨cur, hCur, hPass⟩
  exact mem_yielded.mpr ⟨cur, hCur, hPass⟩

/-
  `eina_tiler_union`: the destination shows what it has shown
  and what the source yields.
-/
theorem union_spec {fuel : Nat} {dst' src' : Tiler} {result : Bool}
    (hDst : dst.Sound) (hSrc : src.Sound) (hRounding : src.rounding = true → dst.rounding = true)
    (hFits : (enlarge dst src).Fits)
    (hUnion : union fuel dst src = some (dst', src', result)) :
    src.iteratorNew fuel = some src' ∧
      dst'.Sound ∧
      (∀ p ∈ dst.area.pixels, p ∈ dst'.area.pixels) ∧
      (∀ p, dst.Shows p → dst'.Shows p) ∧
      ((result = false ∧ dst'.lastAdd = dst.lastAdd) ∨
        (result = true ∧ (∀ p, PixelsOf src'.yielded p → dst'.Shows p ∧
        p ∈ dst'.area.pixels) ∧ ∃ passed, src'.lastPass = some (dst'.lastAdd, passed))) := by
  rcases enlarge_spec hDst hSrc hFits with ⟨hSound, hInside, hGrown⟩
  have hW := hSrc.area.w_pos
  have hH := hSrc.area.h_pos
  unfold union at hUnion
  rw [if_neg (by omega)] at hUnion
  simp only [bind_eq_bind, bind_eq_some_iff] at hUnion
  rcases hUnion with ⟨src₁, hIterator, hUnion⟩
  rcases iteratorNew_spec hSrc hIterator with ⟨hSrc₁, ⟨rects, needMerge, hFrame⟩, -⟩
  have hArea : src₁.area = src.area := by rw [hFrame]
  have hSame : src₁.rounding = src.rounding := by rw [hFrame]
  split at hUnion
  · simp only [Option.some.injEq, Prod.mk.injEq] at hUnion
    rcases hUnion with ⟨rfl, rfl, rfl⟩
    exact ⟨hIterator, hSound, hGrown, fun p hp => hp, Or.inl ⟨rfl, rfl⟩⟩
  · simp only [bind_eq_some_iff] at hUnion
    rcases hUnion with ⟨dst₁, hAdd, hUnion⟩
    have hYields : ∀ r ∈ src₁.yielded, Yields src₁.rounding (enlarge dst src).area r := by
      intro r hMem
      rcases yields_of_mem hSrc₁ hMem with ⟨hIn, hEven⟩
      rw [hArea] at hIn
      exact ⟨hInside r hIn, hEven⟩
    rcases addAll_spec hSound (by rw [hSame]; exact hRounding)
      hYields hAdd with ⟨hDone, hFrame₁, hOld, hNew⟩
    have hArea₁ : dst₁.area = (enlarge dst src).area := by
      rw [hFrame₁]
    split at hUnion
    · simp at hUnion
    · simp only [bind_eq_some_iff, Prod.exists] at hUnion
      rcases hUnion with ⟨rect, passed, hLast, hEq⟩
      simp only [Option.some.injEq, Prod.mk.injEq] at hEq
      rcases hEq with ⟨rfl, rfl, rfl⟩
      refine ⟨hIterator, ⟨hDone.area, hDone.tileW_pos,
        hDone.tileH_pos, hDone.fits, hDone.inBox⟩, ?_, hOld, Or.inr ⟨rfl, ?_, passed, hLast⟩⟩
      · intro p hp
        dsimp only
        rw [hArea₁]
        exact hGrown p hp
      · intro p hp
        refine ⟨hNew p hp, ?_⟩
        rcases hp with ⟨r, hMem, hPixel⟩
        have hIn := (hYields r hMem).inside
        dsimp only
        rw [hArea₁]
        have hX := hSound.area.x_eq
        have hY := hSound.area.y_eq
        rcases hIn with ⟨h₁, h₂, h₃, h₄, h₅, h₆⟩
        rw [Rectangle.mem_pixels] at hPixel ⊢
        omega

/-
  `eina_tiler_subtract`: the destination shows what it has
  shown, except for what the source yields.
-/
theorem subtract_spec {fuel : Nat} {dst' src' : Tiler} {result : Bool}
    (hDst : dst.Sound) (hSrc : src.Sound)
    (hSubtract : subtract fuel dst src = some (dst', src', result)) :
    src.iteratorNew fuel = some src' ∧
      dst'.Sound ∧
      dst'.area = dst.area ∧
      dst'.lastAdd = dst.lastAdd ∧
      ∀ p, dst.Shows p → (result = true ∧ PixelsOf src'.yielded p) ∨ dst'.Shows p := by
  have hW := hSrc.area.w_pos
  have hH := hSrc.area.h_pos
  unfold subtract at hSubtract
  rw [if_neg (by omega)] at hSubtract
  simp only [bind_eq_bind, bind_eq_some_iff] at hSubtract
  rcases hSubtract with ⟨src₁, hIterator, hSubtract⟩
  rcases iteratorNew_spec hSrc hIterator with ⟨hSrc₁, -, -⟩
  split at hSubtract
  · simp only [Option.some.injEq, Prod.mk.injEq] at hSubtract
    rcases hSubtract with ⟨rfl, rfl, rfl⟩
    exact ⟨hIterator, hDst, rfl, rfl, fun p hp => Or.inr hp⟩
  · rcases delAll_spec hDst hSrc₁.area (fun r => yields_of_mem hSrc₁) with
      ⟨hDone, ⟨rects, needMerge, hFrame⟩, hKept⟩
    split at hSubtract
    · simp at hSubtract
    · simp only [bind_eq_some_iff, Prod.exists] at hSubtract
      rcases hSubtract with ⟨rect, passed, hLast, hEq⟩
      simp only [Option.some.injEq, Prod.mk.injEq] at hEq
      rcases hEq with ⟨rfl, rfl, rfl⟩
      refine ⟨hIterator, ⟨hDone.area, hDone.tileW_pos, hDone.tileH_pos,
        hDone.fits, hDone.inBox⟩, by rw [hFrame], by rw [hFrame], ?_⟩
      intro p hp
      rcases hKept p hp with h | h
      · exact Or.inl ⟨rfl, h⟩
      · exact Or.inr h

---
-- Runs
---

/-
  A tiler with its reference set.  The rectangle in
  `last.add` is stale when a pixel of it may be gone.
-/
structure Mixed where
  tiler : Tiler
  reference : Set Pixel
  stale : Prop

/- The calls of a run over the tilers `ι`. -/
inductive MixedOp (ι : Type) where
  | add (i : ι) (r : Rectangle)
  | del (i : ι) (r : Rectangle)
  | union (dst src : ι)
  | subtract (dst src : ι)
  | iterate (i : ι)

/- `eina_tiler_rect_add` -/
def Mixed.add (fuel : Nat) (m : Mixed) (r : Rectangle) : Option Mixed :=
  (m.tiler.rectAdd fuel r).map fun (t, result) =>
    { tiler := t
      reference :=
        if result then
          m.reference ∪ (r.pixels ∩ m.tiler.area.pixels)
        else
          m.reference
      stale := m.stale ∧ t.lastAdd = m.tiler.lastAdd }

/- `eina_tiler_rect_del` -/
def Mixed.del (m : Mixed) (r : Rectangle) : Mixed where
  tiler := m.tiler.rectDel r
  reference := m.reference \ (r.pixels ∩ m.tiler.area.pixels)
  stale := m.stale

/- The destination after `eina_tiler_union`. -/
def Mixed.afterUnion (m : Mixed) (dst src : Tiler) (result : Bool) : Mixed :=
  if result then
    { tiler := dst
      reference := m.reference ∪ { p | PixelsOf src.yielded p }
      stale := src.lastPass ≠ some (dst.lastAdd, true) }
  else
    { m with tiler := dst }

/- The destination after `eina_tiler_subtract`. -/
def Mixed.afterSubtract (m : Mixed) (dst src : Tiler) (result : Bool) : Mixed :=
  if result then
    { tiler := dst
      reference := m.reference \ { p | PixelsOf src.yielded p }
      stale := m.stale ∨
        ∃ p ∈ dst.lastAdd.pixels, PixelsOf src.yielded p }
  else
    { m with tiler := dst }

section

variable {ι : Type} [DecidableEq ι]

/- One call, with fuel for its loops. -/
def mixedStep (s : ι → Mixed) (op : Nat × MixedOp ι) : Option (ι → Mixed) :=
  match op with
  | (fuel, .add i r) => ((s i).add fuel r).map (update s i)
  | (_, .del i r) => some (update s i ((s i).del r))
  | (fuel, .union i j) =>
    (union fuel (s i).tiler (s j).tiler).map
      fun (dst, src, result) =>
        update
          (update s j { s j with tiler := src })
          i ((s i).afterUnion dst src result)
  | (fuel, .subtract i j) =>
    (subtract fuel (s i).tiler (s j).tiler).map
      fun (dst, src, result) =>
        update
          (update s j { s j with tiler := src })
          i ((s i).afterSubtract dst src result)
  | (fuel, .iterate i) =>
    ((s i).tiler.iteratorNew fuel).map fun t =>
      update s i { s i with tiler := t }

/- The arguments of a call are `int` values. -/
def MixedAdmissible (op : Nat × MixedOp ι) : Prop :=
  match op.2 with
  | .add _ r => r.InRange
  | .del _ r => r.InRange
  | .union _ _ => True
  | .subtract _ _ => True
  | .iterate _ => True

/-
  No add repeats a stale rectangle.  A union has two tilers
  of which the destination rounds when the source does, and
  an area that is small enough.
-/
def OpFits (s : ι → Mixed) (op : Nat × MixedOp ι) : Prop :=
  match op.2 with
  | .add i r =>
    (s i).stale →
      (s i).tiler.clip r ≠ some (s i).tiler.lastAdd
  | .del _ _ => True
  | .union i j =>
    i ≠ j ∧
      ((s j).tiler.rounding = true →
        (s i).tiler.rounding = true) ∧
      (enlarge (s i).tiler (s j).tiler).Fits
  | .subtract i j => i ≠ j
  | .iterate _ => True

/-
  The tiler shows the reference set, and the rectangle in
  `last.add` as long as it is not stale.
-/
structure MixedTracks (m : Mixed) : Prop where
  sound : m.tiler.Sound
  inArea : ∀ p ∈ m.reference, p ∈ m.tiler.area.pixels
  shown : ∀ p ∈ m.reference, m.tiler.Shows p
  remembered : ¬ m.stale →
    ∀ p ∈ m.tiler.lastAdd.pixels, m.tiler.Shows p

theorem add_tracks {fuel : Nat} {m m' : Mixed} {r : Rectangle}
    (hTracks : MixedTracks m) (hRange : r.InRange)
    (hFresh : m.stale → m.tiler.clip r ≠ some m.tiler.lastAdd)
    (hAdd : m.add fuel r = some m') : MixedTracks m' := by
  rcases hTracks with ⟨hSound, hArea, hShown, hLast⟩
  simp only [Mixed.add, map_eq_some_iff] at hAdd
  rcases hAdd with ⟨⟨t, result⟩, hCall, rfl⟩
  rcases rectAdd_spec hSound hRange hCall with ⟨hDone, hSame, hOld,
    ⟨hNone, rfl, rfl⟩ | ⟨hRepeat, rfl, rfl⟩ | ⟨rfl, hPixels, hAdded⟩⟩
  · exact ⟨hDone, hArea, hShown, fun h => hLast fun hStale => h ⟨hStale, rfl⟩⟩
  · -- The rectangle is already in `last.add`.
    have hNotStale : ¬ m.stale := fun h => hFresh h hRepeat
    refine ⟨hDone, ?_, ?_, fun _ => hLast hNotStale⟩
    · rintro p (hp | hp)
      · exact hArea p hp
      · exact hp.2
    · rintro p (hp | hp)
      · exact hShown p hp
      · apply hLast hNotStale
        rw [(clip_some hSound.area hRange hRepeat).2]
        exact hp
  · refine ⟨hDone, ?_, ?_, fun _ => hAdded⟩
    · rintro p (hp | hp)
      · dsimp only
        rw [hSame]
        exact hArea p hp
      · dsimp only
        rw [hSame]
        exact hp.2
    · rintro p (hp | hp)
      · exact hOld p (hShown p hp)
      · apply hAdded
        rw [hPixels]
        exact hp

theorem del_tracks {m : Mixed} {r : Rectangle}
    (hTracks : MixedTracks m) (hRange : r.InRange) : MixedTracks (m.del r) := by
  rcases hTracks with ⟨hSound, hArea, hShown, hLast⟩
  rcases rectDel_spec hSound hRange with ⟨hDone, hSame, hKept, hLastDel⟩
  refine ⟨hDone, ?_, ?_, ?_⟩
  · intro p hp
    simp only [Mixed.del, hSame]
    exact hArea p hp.1
  · intro p hp
    rcases hKept p (hShown p hp.1) with h | h
    · exact (hp.2 h).elim
    · exact h
  · rcases hLastDel with hEq | hNegative
    · simp only [Mixed.del, hEq]
      exact hLast
    · intro _ p hp
      exact (notMem_pixels hNegative hp).elim

theorem iterate_tracks {fuel : Nat} {m : Mixed} {t : Tiler} (hTracks : MixedTracks m)
    (hNew : m.tiler.iteratorNew fuel = some t) : MixedTracks { m with tiler := t } := by
  rcases hTracks with ⟨hSound, hArea, hShown, hLast⟩
  rcases iteratorNew_spec hSound hNew with ⟨hDone, ⟨rects, needMerge, rfl⟩, hOld⟩
  exact ⟨hDone, hArea, fun p hp => hOld p (hShown p hp),
    fun hStale p hp => hOld p (hLast hStale p hp)⟩

theorem afterUnion_tracks {fuel : Nat} {m : Mixed} {src dst' src' : Tiler}
    {result : Bool} (hTracks : MixedTracks m) (hSrc : src.Sound)
    (hRounding : src.rounding = true → m.tiler.rounding = true) (hFits : (enlarge m.tiler src).Fits)
    (hUnion : union fuel m.tiler src =
      some (dst', src', result)) : MixedTracks (m.afterUnion dst' src' result) := by
  rcases hTracks with ⟨hSound, hArea, hShown, hLast⟩
  rcases union_spec hSound hSrc hRounding hFits hUnion with ⟨-, hDone,
    hGrown, hOld, ⟨rfl, hSame⟩ | ⟨rfl, hNew, passed, hPass⟩⟩
  · refine ⟨hDone, fun p hp => hGrown p (hArea p hp), fun p hp => hOld p (hShown p hp), ?_⟩
    intro hStale p hp
    simp only [Mixed.afterUnion, Bool.false_eq_true, if_false] at hp
    rw [hSame] at hp
    exact hOld p (hLast hStale p hp)
  · refine ⟨hDone, ?_, ?_, ?_⟩
    · rintro p (hp | hp)
      · exact hGrown p (hArea p hp)
      · exact (hNew p hp).2
    · rintro p (hp | hp)
      · exact hOld p (hShown p hp)
      · exact (hNew p hp).1
    · intro hStale p hp
      have hYielded : src'.lastPass = some (dst'.lastAdd, true) := by
        by_contra h
        exact hStale h
      exact (hNew p ⟨_, mem_yielded_of_lastPass hYielded, hp⟩).1

theorem afterSubtract_tracks {fuel : Nat} {m : Mixed}
    {src dst' src' : Tiler} {result : Bool} (hTracks : MixedTracks m)
    (hSrc : src.Sound) (hSubtract : subtract fuel m.tiler src =
      some (dst', src', result)) : MixedTracks (m.afterSubtract dst' src' result) := by
  rcases hTracks with ⟨hSound, hArea, hShown, hLast⟩
  rcases subtract_spec hSound hSrc hSubtract with ⟨-, hDone, hSame, hLastAdd, hKept⟩
  cases result with
  | false =>
    have hAll : ∀ p, m.tiler.Shows p → dst'.Shows p := by
      intro p hp
      rcases hKept p hp with ⟨h, -⟩ | h
      · simp at h
      · exact h
    refine ⟨hDone, ?_, fun p hp => hAll p (hShown p hp), ?_⟩
    · intro p hp
      simp only [Mixed.afterSubtract, Bool.false_eq_true, if_false, hSame]
      exact hArea p hp
    · intro hStale p hp
      simp only [Mixed.afterSubtract, Bool.false_eq_true, if_false] at hp
      rw [hLastAdd] at hp
      exact hAll p (hLast hStale p hp)
  | true =>
    refine ⟨hDone, ?_, ?_, ?_⟩
    · intro p hp
      simp only [Mixed.afterSubtract, if_true, hSame]
      exact hArea p hp.1
    · intro p hp
      rcases hKept p (hShown p hp.1) with ⟨-, h⟩ | h
      · exact (hp.2 h).elim
      · exact h
    · intro hStale p hp
      simp only [Mixed.afterSubtract, if_true, not_or, not_exists, not_and] at hStale hp
      have hOld := hp
      rw [hLastAdd] at hOld
      rcases hKept p (hLast hStale.1 p hOld) with ⟨-, h⟩ | h
      · exact (hStale.2 p hp h).elim
      · exact h

/- An update keeps what holds of every tiler. -/
theorem tracks_update {s : ι → Mixed} {i : ι} {m : Mixed}
    (hTracks : ∀ i, MixedTracks (s i)) (hNew : MixedTracks m) :
    ∀ k, MixedTracks (update s i m k) := by
  intro k
  by_cases hSame : k = i
  · subst hSame
    rw [update_self]
    exact hNew
  · rw [update_of_ne hSame]
    exact hTracks k

/- One call. -/
theorem mixedStep_tracks {s s' : ι → Mixed} {op : Nat × MixedOp ι}
    (hTracks : ∀ i, MixedTracks (s i)) (hOk : MixedAdmissible op ∧ OpFits s op)
    (hStep : mixedStep s op = some s') : ∀ i, MixedTracks (s' i) := by
  rcases hOk with ⟨hAdmissible, hFits⟩
  rcases op with ⟨fuel, op⟩
  cases op with
  | add i r =>
    simp only [mixedStep, map_eq_some_iff] at hStep
    rcases hStep with ⟨m, hCall, rfl⟩
    exact tracks_update hTracks (add_tracks (hTracks i) hAdmissible hFits hCall)
  | del i r =>
    obtain rfl := some.inj hStep
    exact tracks_update hTracks (del_tracks (hTracks i) hAdmissible)
  | union i j =>
    simp only [mixedStep, map_eq_some_iff, Prod.exists] at hStep
    rcases hStep with ⟨dst, src, result, hCall, rfl⟩
    rcases hFits with ⟨-, hRounding, hFits⟩
    have hIterator := (union_spec (hTracks i).sound (hTracks j).sound hRounding hFits hCall).1
    exact tracks_update (tracks_update hTracks
        (iterate_tracks (hTracks j) hIterator)) (afterUnion_tracks
        (hTracks i) (hTracks j).sound hRounding hFits hCall)
  | subtract i j =>
    simp only [mixedStep, map_eq_some_iff, Prod.exists] at hStep
    rcases hStep with ⟨dst, src, result, hCall, rfl⟩
    have hIterator := (subtract_spec (hTracks i).sound (hTracks j).sound hCall).1
    exact tracks_update (tracks_update hTracks (iterate_tracks (hTracks j) hIterator))
      (afterSubtract_tracks (hTracks i) (hTracks j).sound hCall)
  | iterate i =>
    simp only [mixedStep, map_eq_some_iff] at hStep
    rcases hStep with ⟨t, hCall, rfl⟩
    exact tracks_update hTracks (iterate_tracks (hTracks i) hCall)

/- A tiler before its first call. -/
def Mixed.start (t : Tiler) : Mixed where
  tiler := t
  reference := ∅
  stale := False

theorem start_tracks {t : Tiler} (hFresh : t.Fresh) (hFits : t.Fits) : MixedTracks (.start t) :=
  ⟨hFresh.sound hFits, by simp [Mixed.start], by simp [Mixed.start],
    fun _ _ hp => (notMem_pixels hFresh.lastAdd hp).elim⟩

end

/- Two tilers with the settings of `eina_tiler_new`. -/
def samplePair (_ : Bool) : Tiler :=
  sampleTiler

/- Damage that one tiler hands over to the other. -/
def sampleMixedOps : List (Nat × MixedOp Bool) :=
  [(8, .add true ⟨10, 10, 40, 50⟩),
    (8, .union false true)]

/-
  An area is added, subtracted and added again: the last call
  returns `EINA_TRUE` and does nothing.
-/
def repeatedOps : List (Nat × MixedOp Bool) :=
  [(8, .add false ⟨0, 0, 20, 20⟩),
    (8, .add true ⟨0, 0, 64, 64⟩),
    (8, .subtract false true),
    (8, .add false ⟨0, 0, 20, 20⟩)]

end Efl.Eina.Tiler
