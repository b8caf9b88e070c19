import Efl.Lib.Runs
import Efl.Eina.Tiler.Damage

/-
  Runs of a tiler.

  The reference set of a run is the damage that was added and
  not deleted.  The iterator covers it as long as the sizes
  of the tiler and the ends of the added rectangles are `int`
  values.

  Main declarations:
    * `Tiler.Fresh`
    * `Tiler.Op`
    * `Tiler.rectAdd_spec`
    * `Tiler.rectDel_spec`
-/

---
-- Calls
---

namespace Efl.Eina.Tiler

open CInt Option

/- A tiler before its first call, with any settings. -/
structure Fresh (t : Tiler) : Prop where
  area : t.area.IsArea
  tileW_pos : 0 < t.tileW
  tileH_pos : 0 < t.tileH
  rects : t.rects = []
  lastAdd : t.lastAdd.w < 0

variable {t : Tiler}

theorem Fresh.sound (hFresh : t.Fresh) (hFits : t.Fits) : t.Sound where
  area := hFresh.area
  tileW_pos := hFresh.tileW_pos
  tileH_pos := hFresh.tileH_pos
  fits := hFits
  inBox := by
    rw [hFresh.rects]
    simp

/- Both ends of the rectangle are `int` values. -/
def EndsInRange (r : Rectangle) : Prop :=
  0 < r.w → 0 < r.h →
    r.x + r.w ≤ intMax ∧ r.y + r.h ≤ intMax

instance (r : Rectangle) : Decidable (EndsInRange r) :=
  inferInstanceAs (Decidable (_ → _))

variable {r : Rectangle}

/- The part of a rectangle in the area. -/
theorem clip_some {tmp : Rectangle} (hArea : t.area.IsArea)
    (hRange : r.InRange) (hClip : t.clip r = some tmp) :
    tmp.Inside t.area ∧ tmp.pixels = r.pixels ∩ t.area.pixels := by
  unfold clip at hClip
  split at hClip
  · simp at hClip
  · rcases hCall : Rectangle.intersection r t.area with ⟨tmp', meets⟩
    rw [hCall] at hClip
    dsimp only at hClip
    split at hClip
    · simp at hClip
    · rename_i hMeets
      split at hClip
      · simp at hClip
      · obtain rfl := some.inj hClip
        have hTrue : meets = true := by simpa using hMeets
        subst hTrue
        rcases Rectangle.intersection_true hArea hRange hCall with ⟨hInside, hEq, -, -⟩
        exact ⟨hInside, hEq⟩

/- A call that does nothing is about no pixel. -/
theorem clip_none (hArea : t.area.IsArea) (hRange : r.InRange)
    (hEnds : EndsInRange r) (hClip : t.clip r = none) : r.pixels ∩ t.area.pixels = ∅ := by
  unfold clip at hClip
  split at hClip
  · rename_i hInvalid
    rw [Set.eq_empty_iff_forall_notMem]
    intro p hp
    have hMem := hp.1
    rw [Rectangle.mem_pixels] at hMem
    omega
  · rename_i hValid
    have hEnd := hEnds (by omega) (by omega)
    rcases hCall : Rectangle.intersection r t.area with ⟨tmp, meets⟩
    rw [hCall] at hClip
    cases meets with
    | false =>
      exact Rectangle.intersection_false hArea hRange hEnd.1 hEnd.2 hCall
    | true =>
      have hInside := (Rectangle.intersection_true hArea hRange hCall).1
      have hW := hInside.w_pos
      have hH := hInside.h_pos
      dsimp only at hClip
      rw [if_neg (by simp), if_neg (by omega)] at hClip
      simp at hClip

theorem placed_of_inside (hInside : r.Inside t.area) : t.Placed r := by
  rcases hInside with ⟨h₁, h₂, h₃, h₄, h₅, h₆⟩
  exact ⟨h₁, h₂, Int.le_of_lt h₃, Int.le_of_lt h₄, h₅, h₆⟩

/-
  `eina_tiler_rect_add` shows the rectangle, unless it is the
  one added last or has no part in the area.
-/
theorem rectAdd_spec {fuel : Nat} {t' : Tiler} {result : Bool}
    (hSound : t.Sound) (hRange : r.InRange)
    (hAdd : rectAdd fuel t r = some (t', result)) :
    t'.Sound ∧ t'.area = t.area ∧ (∀ p, t.Shows p → t'.Shows p) ∧
      ((t.clip r = none ∧ result = false ∧ t' = t) ∨
      (t.clip r = some t.lastAdd ∧ result = true ∧ t' = t) ∨
      (result = true ∧ t'.lastAdd.pixels = r.pixels ∩ t.area.pixels ∧
      ∀ p ∈ t'.lastAdd.pixels, t'.Shows p)) := by
  unfold rectAdd at hAdd
  cases hClip : t.clip r with
  | none =>
    rw [hClip] at hAdd
    simp only [Option.some.injEq, Prod.mk.injEq] at hAdd
    rcases hAdd with ⟨rfl, rfl⟩
    exact ⟨hSound, rfl, fun p hp => hp, Or.inl ⟨rfl, rfl, rfl⟩⟩
  | some tmp =>
    rw [hClip] at hAdd
    dsimp only at hAdd
    split at hAdd
    · rename_i hSame
      subst hSame
      simp only [Option.some.injEq, Prod.mk.injEq] at hAdd
      rcases hAdd with ⟨rfl, rfl⟩
      exact ⟨hSound, rfl, fun p hp => hp, Or.inr (Or.inl ⟨rfl, rfl, rfl⟩)⟩
    · simp only [bind_eq_bind, bind_eq_some_iff] at hAdd
      rcases hAdd with ⟨t₁, hSplitter, hEq⟩
      simp only [Option.some.injEq, Prod.mk.injEq] at hEq
      rcases hEq with ⟨rfl, rfl⟩
      rcases clip_some hSound.area hRange hClip with ⟨hInside, hPixels⟩
      have hSound' : Sound
          { t with
            lastAdd := tmp
            lastDel := forget t.lastDel } :=
        ⟨hSound.area, hSound.tileW_pos, hSound.tileH_pos, hSound.fits, hSound.inBox⟩
      rcases splitterRectAdd_spec hSound'
        (placed_of_inside hInside) hSplitter with ⟨hDone, hFrame, hOld, hNew⟩
      have hLast : t₁.lastAdd = tmp := by
        rw [hFrame]
      refine ⟨hDone, by rw [hFrame], hOld, Or.inr (Or.inr ⟨rfl, ?_, ?_⟩)⟩
      · rw [hLast, hPixels]
      · intro p hp
        rw [hLast, Rectangle.mem_pixels] at hp
        exact hNew p hp.1 (Or.inl hp.2.1) hp.2.2.1 (Or.inl hp.2.2.2)

/-
  `eina_tiler_rect_del` keeps what is outside the rectangle.
-/
theorem rectDel_spec (hSound : t.Sound) (hRange : r.InRange) :
    (rectDel t r).Sound ∧ (rectDel t r).area = t.area ∧
      (∀ p, t.Shows p → p ∈ r.pixels ∩ t.area.pixels ∨
        (rectDel t r).Shows p) ∧
      (rectDel t r = t ∨ (rectDel t r).lastAdd.w < 0) := by
  unfold rectDel
  cases hClip : t.clip r with
  | none => exact ⟨hSound, rfl, fun p hp => Or.inr hp, Or.inl rfl⟩
  | some tmp =>
    dsimp only
    split
    · exact ⟨hSound, rfl, fun p hp => Or.inr hp, Or.inl rfl⟩
    · rcases clip_some hSound.area hRange hClip with ⟨hInside, hPixels⟩
      have hSound' : Sound
          { t with
            lastDel := tmp
            lastAdd := forget t.lastAdd } :=
        ⟨hSound.area, hSound.tileW_pos, hSound.tileH_pos, hSound.fits, hSound.inBox⟩
      have hRight := hInside.right_le
      have hBottom := hInside.bottom_le
      have hWidth := hSound.area.w_le
      have hHeight := hSound.area.h_le
      rcases splitterRectDel_spec hSound' hInside.x_nonneg hInside.y_nonneg (by omega) (by omega)
        (Int.le_of_lt hInside.w_pos) (Int.le_of_lt hInside.h_pos) with
        ⟨hDone, ⟨rects, needMerge, hFrame⟩, hKept⟩
      refine ⟨hDone, by rw [hFrame], ?_, Or.inr ?_⟩
      · intro p hp
        rcases hKept p hp with h | h
        · rw [hPixels] at h
          exact Or.inl h
        · exact Or.inr h
      · rw [hFrame]
        exact (by decide : (-1 : Int) < 0)

---
-- Runs
---

/- The calls of a run. -/
inductive Op where
  | add (r : Rectangle)
  | del (r : Rectangle)
  | clear
  | iterate

/- A tiler, and the pixels added and not deleted. -/
structure Tracked where
  tiler : Tiler
  reference : Set Pixel

/- One call, with fuel for its loops. -/
def step (s : Tracked) (op : Nat × Op) : Option Tracked :=
  match op with
  | (fuel, .add r) =>
    (s.tiler.rectAdd fuel r).map fun result =>
      ⟨result.1,
        s.reference ∪ (r.pixels ∩ s.tiler.area.pixels)⟩
  | (_, .del r) =>
    some ⟨s.tiler.rectDel r,
      s.reference \ (r.pixels ∩ s.tiler.area.pixels)⟩
  | (_, .clear) => some ⟨s.tiler.clear, ∅⟩
  | (fuel, .iterate) =>
    (s.tiler.iteratorNew fuel).map fun t =>
      ⟨t, s.reference⟩

/- The arguments of a call are `int` values. -/
def Admissible (op : Nat × Op) : Prop :=
  match op.2 with
  | .add r => r.InRange
  | .del r => r.InRange
  | .clear => True
  | .iterate => True

/- The ends of an added rectangle are `int` values. -/
def AddFits (op : Nat × Op) : Prop :=
  match op.2 with
  | .add r => EndsInRange r
  | .del _ => True
  | .clear => True
  | .iterate => True

/-
  The tiler shows the reference set, and the rectangle that
  it remembers as added.
-/
structure Tracks (s : Tracked) : Prop where
  sound : s.tiler.Sound
  inArea : ∀ p ∈ s.reference, p ∈ s.tiler.area.pixels
  shown : ∀ p ∈ s.reference, s.tiler.Shows p
  remembered : ∀ p ∈ s.tiler.lastAdd.pixels, s.tiler.Shows p

/- A rectangle of negative width has no pixels. -/
theorem notMem_pixels {p : Pixel} (hNegative : r.w < 0) : p ∉ r.pixels := by
  rw [Rectangle.mem_pixels]
  omega

/- One call. -/
theorem step_tracks {s s' : Tracked} {op : Nat × Op}
    (hTracks : Tracks s) (hOk : Admissible op ∧ AddFits op)
    (hStep : step s op = some s') : Tracks s' := by
  rcases hTracks with ⟨hSound, hArea, hShown, hLast⟩
  rcases hOk with ⟨hAdmissible, hFits⟩
  rcases op with ⟨fuel, op⟩
  cases op with
  | add r =>
    simp only [step, map_eq_some_iff] at hStep
    rcases hStep with ⟨⟨t, result⟩, hCall, rfl⟩
    rcases rectAdd_spec hSound hAdmissible hCall with ⟨hDone, hSame, hOld, hCases⟩
    have hNew : ∀ p ∈ r.pixels ∩ s.tiler.area.pixels, t.Shows p := by
      rcases hCases with ⟨hNone, -, -⟩ | ⟨hRepeat, -, hEq⟩ | ⟨-, hPixels, hAdded⟩
      · intro p hp
        rw [clip_none hSound.area hAdmissible hFits hNone] at hp
        exact hp.elim
      · intro p hp
        rw [hEq]
        apply hLast
        rw [(clip_some hSound.area hAdmissible hRepeat).2]
        exact hp
      · intro p hp
        apply hAdded
        rw [hPixels]
        exact hp
    refine ⟨hDone, ?_, ?_, ?_⟩
    · intro p hp
      rw [hSame]
      rcases hp with hp | hp
      · exact hArea p hp
      · exact hp.2
    · intro p hp
      rcases hp with hp | hp
      · exact hOld p (hShown p hp)
      · exact hNew p hp
    · rcases hCases with ⟨-, -, rfl⟩ | ⟨-, -, rfl⟩ | ⟨-, -, hAdded⟩
      · exact hLast
      · exact hLast
      · exact hAdded
  | del r =>
    obtain rfl := some.inj hStep
    rcases rectDel_spec hSound hAdmissible with ⟨hDone, hSame, hKept, hLastDel⟩
    refine ⟨hDone, ?_, ?_, ?_⟩
    · intro p hp
      dsimp only
      rw [hSame]
      exact hArea p hp.1
    · intro p hp
      rcases hKept p (hShown p hp.1) with h | h
      · exact (hp.2 h).elim
      · exact h
    · dsimp only
      rcases hLastDel with hEq | hNegative
      · rw [hEq]
        exact hLast
      · intro p hp
        exact (notMem_pixels hNegative hp).elim
  | clear =>
    obtain rfl := some.inj hStep
    refine ⟨⟨hSound.area, hSound.tileW_pos, hSound.tileH_pos,
      hSound.fits, by simp [clear]⟩, by simp, by simp, ?_⟩
    intro p hp
    exact (notMem_pixels (by simp [clear, forget]) hp).elim
  | iterate =>
    simp only [step, map_eq_some_iff] at hStep
    rcases hStep with ⟨t, hCall, rfl⟩
    rcases iteratorNew_spec hSound hCall with ⟨hDone, ⟨rects, needMerge, hFrame⟩, hOld⟩
    refine ⟨hDone, ?_, fun p hp => hOld p (hShown p hp), ?_⟩
    · rw [hFrame]
      exact hArea
    · intro p hp
      apply hOld
      rw [hFrame] at hp
      exact hLast p hp

/-
  In every run whose calls return, the iterator covers the
  damage that was added and not deleted.
-/
theorem damage_covered
    {t t' : Tiler} {ops : List (Nat × Op)} {s : Tracked}
    {fuel : Nat} (hFresh : t.Fresh) (hFits : t.Fits)
    (hAdmissible : ∀ op ∈ ops, Admissible op)
    (hAdds : ∀ op ∈ ops, AddFits op)
    (hRun : Runs.run step ⟨t, ∅⟩ ops = some s)
    (hIterator : s.tiler.iteratorNew fuel = some t') :
    ∀ p ∈ s.reference, PixelsOf t'.yielded p := by
  have hStart : Tracks ⟨t, ∅⟩ := by
    refine ⟨hFresh.sound hFits, by simp, by simp, ?_⟩
    intro p hp
    exact (notMem_pixels hFresh.lastAdd hp).elim
  have hGuarded : Runs.Guarded step
      (fun _ op => Admissible op ∧ AddFits op) ⟨t, ∅⟩ ops :=
    Runs.guarded_of_forall fun op hMem =>
      ⟨hAdmissible op hMem, hAdds op hMem⟩
  have hTracks : Tracks s :=
    Runs.inv_of_run Tracks
      (fun _ _ _ => step_tracks) hStart hGuarded hRun
  intro p hp
  rcases iteratorNew_spec hTracks.sound hIterator with
    ⟨hDone, ⟨rects, needMerge, hFrame⟩, hOld⟩
  rw [yielded_covers hDone]
  refine ⟨hOld p (hTracks.shown p hp), ?_⟩
  rw [hFrame]
  exact hTracks.inArea p hp

/- A tiler with the settings of `eina_tiler_new`. -/
def sampleTiler : Tiler where
  tileW := 32
  tileH := 32
  lastAdd := ⟨0, 0, -1, -1⟩
  lastDel := ⟨0, 0, -1, -1⟩
  area := ⟨0, 0, 100, 100⟩
  needMerge := false
  rects := []
  rounding := true
  strict := false

example : new 100 100 = some sampleTiler := rfl

theorem fresh_sampleTiler : Fresh sampleTiler :=
  ⟨⟨rfl, rfl, by decide, by decide, by decide, by decide⟩, by decide, by decide, rfl, by decide⟩

/- Two damaged parts, and one that is deleted again. -/
def sampleOps : List (Nat × Op) :=
  [(8, .add ⟨10, 10, 40, 50⟩),
    (8, .add ⟨70, 60, 15, 3⟩),
    (8, .iterate),
    (8, .del ⟨20, 20, 8, 8⟩)]

theorem damage_covered_sample :
    ∃ s t',
      Runs.run step ⟨sampleTiler, ∅⟩ sampleOps = some s ∧
      s.tiler.iteratorNew 8 = some t' ∧
      ∀ p ∈ s.reference, PixelsOf t'.yielded p := by
  have hRun : ∃ s,
      Runs.run step ⟨sampleTiler, ∅⟩ sampleOps = some s ∧
      ∃ t', s.tiler.iteratorNew 8 = some t' :=
    ⟨_, rfl, _, rfl⟩
  rcases hRun with ⟨s, hRun, t', hIterator⟩
  refine ⟨s, t', hRun, hIterator, ?_⟩
  refine damage_covered fresh_sampleTiler (by decide) ?_ ?_
    hRun hIterator
  · simp [sampleOps, Admissible, Rectangle.InRange, CInt.InRange]
  · simp [sampleOps, AddFits, EndsInRange, intMax]

/-
  `x + w` is no `int`: the intersection is empty, and the
  damage is lost.
-/
theorem damage_lost :
    Admissible (8, .add ⟨50, 0, intMax, 10⟩) ∧
      ∃ s t',
        Runs.run step ⟨sampleTiler, ∅⟩
          [(8, .add ⟨50, 0, intMax, 10⟩)] = some s ∧
        s.tiler.iteratorNew 8 = some t' ∧
        (50, 0) ∈ s.reference ∧
        ¬ PixelsOf t'.yielded (50, 0) := by
  refine ⟨by simp [Admissible, Rectangle.InRange,
    CInt.InRange, intMax], _, sampleTiler, rfl, rfl, ?_, ?_⟩
  · right
    simp [Rectangle.mem_pixels, sampleTiler, intMax]
  · rintro ⟨r, hMem, -⟩
    exact absurd hMem (List.not_mem_nil)

end Efl.Eina.Tiler
