import Efl.Edje.Automaton
import Efl.Lib.Runs

/-
  Safety of the matcher, and when it gives the right answer.

  States may be in a list more than once, since the test for
  duplicates only works below the size of the list; and marks
  that an earlier call left make states get lost.

  Main declarations:
    * `Fits`
    * `walk`
    * `match_safe`
    * `match_spec`
-/

---
-- Bounds
---

namespace Efl.Edje

open Bytes List Option Function

/-
  In no step the automaton can reach its states in more ways
  than there is room for states, and it meets no class that is
  read behind the NUL, as long as no token is wrong.
-/
def Fits (ppat : Patterns) : List State → List Byte → Prop
  | _, [] => True
  | base, c :: string =>
    let all := base.flatMap (spreads ppat)
    all.length ≤ ppat.arrayLen ∧
      (∀ s ∈ all, NoOverread ppat c s) ∧
      ((∀ s ∈ all,
          execToken (ppat.rest s) c ≠ .syntaxError) →
        Fits ppat (all.filterMap (move ppat c)) string)

instance (ppat : Patterns) (c : Byte) (s : State) : Decidable (NoOverread ppat c s) :=
  inferInstanceAs (Decidable (_ ≠ _))

instance decidableFits (ppat : Patterns) : (base : List State) → (string : List Byte) →
      Decidable (Fits ppat base string)
  | _, [] => .isTrue trivial
  | base, c :: string =>
    have := decidableFits ppat
      ((base.flatMap (spreads ppat)).filterMap (move ppat c))
      string
    inferInstanceAs (Decidable (_ ∧ _ ∧ (_ → _)))

/- The states at the start. -/
def initial (ppat : Patterns) : List State :=
  (List.range ppat.patterns.length).map fun i => ⟨i, 0⟩

theorem subperm_flatMap {α β : Type} {as bs : List α}
    (f : α → List β) (hSub : as.Subperm bs) : (as.flatMap f).Subperm (bs.flatMap f) := by
  rcases hSub with ⟨cs, hPerm, hSub⟩
  exact ⟨cs.flatMap f, hPerm.flatMap_right f, hSub.flatMap f⟩

theorem subperm_filterMap {α β : Type} {as bs : List α}
    (f : α → Option β) (hSub : as.Subperm bs) : (as.filterMap f).Subperm (bs.filterMap f) := by
  rcases hSub with ⟨cs, hPerm, hSub⟩
  exact ⟨cs.filterMap f, hPerm.filterMap f, hSub.filterMap f⟩

variable {ppat : Patterns} {base bound : List State}
  {states newStates : States}

variable {lost : State → Prop}

/- All states that are not lost are in a list that is closed. -/
theorem ScanInv.complete {c : Byte} {b : State} {j : Nat} (hInv : ScanInv
    ppat c lost base bound states.states.length states newStates)
    (hBase : b ∈ base) (hLe : j ≤ leadingStars (ppat.rest b))
    (hFound : ∀ k, 1 ≤ k → k ≤ j → ¬ lost (b.shift k)) : b.shift j ∈ states.states := by
  induction j with
  | zero => exact hInv.kept b hBase
  | succ j ih =>
    have hPrev := ih (by omega) (fun k hLow hHigh => hFound k hLow (by omega))
    rcases mem_iff_getElem?.mp hPrev with ⟨k, hAt⟩
    have hBound := (List.getElem?_eq_some_iff.mp hAt).1
    have hStar : byteAt (ppat.rest (b.shift j)) 0 = star := by
      rw [Patterns.rest_shift]
      exact byteAt_leadingStars (by omega)
    rw [← State.shift_shift]
    refine (hInv.closed k _ hBound hAt hStar).resolve_right ?_
    rw [State.shift_shift]
    exact hFound (j + 1) (by omega) (le_refl _)

/- The states of the next list. -/
theorem ScanInv.mem_news_iff {c : Byte} {t : State} (hInv : ScanInv ppat c lost
    base bound states.states.length states newStates) :
    t ∈ newStates.states ↔ ∃ b ∈ base, ∃ j,
      j ≤ leadingStars (ppat.rest b) ∧
      (∀ k, 1 ≤ k → k ≤ j → ¬ lost (b.shift k)) ∧ move ppat c (b.shift j) = some t := by
  rw [hInv.news]
  constructor
  · rintro ⟨k, s, -, hAt, hMove⟩
    rcases hInv.sound s (mem_of_getElem? hAt) with ⟨b, hb, j, hj, rfl, hFound⟩
    exact ⟨b, hb, j, hj, hFound, hMove⟩
  · rintro ⟨b, hb, j, hj, hFound, hMove⟩
    rcases mem_iff_getElem?.mp (hInv.complete hb hj hFound) with ⟨k, hAt⟩
    exact ⟨k, _, (List.getElem?_eq_some_iff.mp hAt).1, hAt, hMove⟩

/- Without lost states these are all that there can be. -/
theorem ScanInv.mem_news_iff_move {c : Byte} {t : State}
    (hInv : ScanInv ppat c (fun _ =>
    False) base bound states.states.length states newStates) :
    t ∈ newStates.states ↔ t ∈ (base.flatMap (spreads ppat)).filterMap (move ppat c) := by
  rw [hInv.mem_news_iff, mem_filterMap]
  constructor
  · rintro ⟨b, hb, j, hj, -, hMove⟩
    exact ⟨b.shift j, mem_flatMap.mpr ⟨b, hb, mem_spreads.mpr ⟨j, hj, rfl⟩⟩, hMove⟩
  · rintro ⟨s, hs, hMove⟩
    rcases mem_flatMap.mp hs with ⟨b, hb, hs⟩
    rcases mem_spreads.mp hs with ⟨j, hj, rfl⟩
    exact ⟨b, hb, j, hj, by simp, hMove⟩

/- The scan of a list that loses nothing. -/
theorem scan_spec (c : Byte) (newStates : States) (hOk : ppat.Ok)
    (hRange : ∀ s ∈ states.states, ppat.InRange s) (hHonest : Honest ppat lost states)
    (hRoom : (states.states.flatMap (spreads ppat)).length ≤ ppat.arrayLen)
    (hTokens : ∀ s ∈ states.states.flatMap (spreads ppat),
      NoOverread ppat c s) :
    ∃ states' newStates' ok,
      scan ppat c ppat.arrayLen 0 states newStates.clear =
        some (states', newStates', ok) ∧
      (ok = false → ∃ s ∈ states.states.flatMap (spreads ppat),
        execToken (ppat.rest s) c = .syntaxError) ∧
      (ok = true → ScanInv ppat c lost states.states
        ((states.states.flatMap (spreads ppat)).filterMap (move ppat c))
        states'.states.length states' newStates') := by
  rcases scan_run hOk (scanInv_start c newStates hRange hHonest hRoom)
    (Nat.le_add_right ppat.arrayLen 0) (fun b hb s hs =>
    hTokens s (mem_flatMap.mpr ⟨b, hb, hs⟩)) with
    ⟨states', newStates', ok, hRun, hError, hSpread, hInv⟩
  refine ⟨states', newStates', ok, hRun, ?_, hInv⟩
  intro hNot
  rcases hError hNot with ⟨s, hs, hWrong⟩
  rcases hSpread s hs with ⟨b, hb, hIn⟩
  exact ⟨s, mem_flatMap.mpr ⟨b, hb, hIn⟩, hWrong⟩

/- No run leaves the arrays or the patterns. -/
theorem matchFn_safe {string : List Byte} (newStates : States)
    (hOk : ppat.Ok) (hRange : ∀ s ∈ states.states, ppat.InRange s)
    (hHonest : Honest ppat (fun _ => False) states)
    (hSub : states.states.Subperm base) (hAll : base ⊆ states.states)
    (hFits : Fits ppat base string) : ∃ r, matchFn ppat states newStates string = some r := by
  induction string generalizing states newStates base with
  | nil => exact ⟨_, rfl⟩
  | cons c string ih =>
    rw [matchFn]
    split
    · exact ⟨_, rfl⟩
    · have hSpread := subperm_flatMap (spreads ppat) hSub
      rcases scan_spec c newStates hOk hRange hHonest (hSpread.length_le.trans hFits.1)
        (fun s hs => hFits.2.1 s (hSpread.subset hs)) with ⟨states', newStates', ok, hRun, -, hDone⟩
      rw [hRun, bind_eq_bind, bind_some]
      dsimp only
      cases ok with
      | false => exact ⟨_, rfl⟩
      | true =>
        have hInv := hDone rfl
        have hNoError : ∀ s ∈ base.flatMap (spreads ppat),
            execToken (ppat.rest s) c ≠ .syntaxError := by
          intro s hs
          rcases mem_flatMap.mp hs with ⟨b, hb, hs⟩
          rcases mem_spreads.mp hs with ⟨j, hj, rfl⟩
          rcases mem_iff_getElem?.mp (hInv.complete (hAll hb) hj (by simp)) with ⟨k, hAt⟩
          exact hInv.noError k _ (List.getElem?_eq_some_iff.mp hAt).1 hAt
        have hWithin := hInv.within
        rw [drop_length, flatMap_nil, filterMap_nil, append_nil] at hWithin
        rcases ih states' hInv.newRange hInv.newHonest
          (hWithin.trans (subperm_filterMap _ hSpread)) (by
            intro t ht
            rw [hInv.mem_news_iff_move]
            rcases mem_filterMap.mp ht with ⟨s, hs, hMove⟩
            rcases mem_flatMap.mp hs with ⟨b, hb, hs⟩
            exact mem_filterMap.mpr ⟨s, mem_flatMap.mpr ⟨b, hAll hb, hs⟩, hMove⟩)
          (hFits.2.2 hNoError) with ⟨⟨a, b, r⟩, hRest⟩
        refine ⟨(b, a, r), ?_⟩
        simp [hRest]

---
-- The First List
---

/- The states that marks of an earlier call hide. -/
def Lost (ppat : Patterns) (has : Nat → Bool) (s : State) : Prop :=
  ppat.InRange s ∧ 1 ≤ s.pos ∧
    ppat.code s < ppat.patterns.length ∧
    has (ppat.code s) = true

theorem foldl_marks {is : List Nat} {n k : Nat} {has : Nat → Bool} :
    is.foldl (fun has i => update has (i * n) true) has k = true ↔
        has k = true ∨ ∃ i ∈ is, i * n = k := by
  induction is generalizing has with
  | nil => simp
  | cons i is ih =>
    rw [foldl_cons, ih]
    by_cases hHere : k = i * n
    · subst hHere
      simp
    · rw [update_of_ne hHere]
      simp [Ne.symm hHere]

theorem initial_range (ppat : Patterns) : ∀ s ∈ initial ppat, ppat.InRange s := by
  intro s hs
  rcases mem_map.mp hs with ⟨i, hi, rfl⟩
  exact ⟨mem_range.mp hi, Nat.zero_le _⟩

/- The marks of the first list. -/
theorem init_honest (list : States) (hOk : ppat.Ok) :
    Honest ppat (Lost ppat list.has) (execInitStates ppat list) := by
  have hLength : (execInitStates ppat list).states.length = ppat.patterns.length := by
    simp [execInitStates]
  constructor
  · intro s hRange hLess hHas
    rw [hLength] at hLess
    by_cases hFirst : s.pos = 0
    · left
      refine mem_map.mpr ⟨s.idx, mem_range.mpr hRange.1, ?_⟩
      cases s
      simp_all
    · right
      refine ⟨hRange, by omega, hLess, ?_⟩
      rcases foldl_marks.mp hHas with h | ⟨i, hi, hSame⟩
      · exact h
      · have hStart : ppat.InRange ⟨i, 0⟩ := ⟨mem_range.mp hi, Nat.zero_le _⟩
        have hEq := hStart.code_inj hRange hOk hSame
        rw [← hEq] at hFirst
        exact (hFirst rfl).elim
  · rintro s ⟨-, -, hLess, hHas⟩
    rw [hLength]
    exact ⟨hLess, foldl_marks.mpr (Or.inl hHas)⟩

/- `_edje_match_fn` from states that are allocated for it. -/
def matchFresh (ppat : Patterns) (string : CString) :
    Option (States × States × Option (List State)) := do
  let lists ← statesAlloc ppat
  matchFn ppat (execInitStates ppat lists.1) lists.2
    string.chars

/- The pattern "a*b" and the string "axb". -/
def samplePatterns : List CString :=
  [⟨[97, 42, 98], by decide⟩]

def sampleString : CString :=
  ⟨[97, 120, 98], by decide⟩

/- A state of the list leads to a match. -/
def Live (ppat : Patterns) (ss : List State) (string : List Byte) : Prop :=
  ∃ s ∈ ss, Matches (ppat.rest s) string

/-
  The next states of a position in a valid pattern are valid,
  no token is wrong, and they lead to the same matches.
-/
theorem spread_move_spec {s : State} (c : Byte)
    (hValid : Valid (ppat.rest s)) :
    (∀ u ∈ spreads ppat s,
        execToken (ppat.rest u) c ≠ .syntaxError ∧
        ∀ v, move ppat c u = some v → Valid (ppat.rest v)) ∧
      ∀ string, Matches (ppat.rest s) (c :: string) ↔
        ∃ u ∈ spreads ppat s, ∃ v, move ppat c u = some v ∧ Matches (ppat.rest v) string := by
  generalize hRest : ppat.rest s = p at hValid
  induction p generalizing s with
  | nil =>
    have hOnly := spreads_other (by rw [hRest]; decide)
    have hMove : move ppat c s = none := by
      simp [move, hRest]
    rw [hOnly]
    refine ⟨?_, ?_⟩
    · intro u hu
      obtain rfl := mem_singleton.mp hu
      rw [hRest]
      exact ⟨execToken_nil c, by simp [hMove]⟩
    · intro string
      constructor
      · intro hMatch
        cases hMatch
      · rintro ⟨u, hu, v, hv, -⟩
        obtain rfl := mem_singleton.mp hu
        simp [hMove] at hv
  | cons a p ih =>
    by_cases hStar : a = star
    · subst hStar
      have hNext : ppat.rest (s.shift 1) = p := by
        rw [Patterns.rest_shift, hRest]
        rfl
      have hMove : move ppat c s = some s := by
        simp [move, hRest, byteAt_cons_zero]
      rcases ih hNext (valid_of_star hValid) with ⟨hAll, hSame⟩
      rw [spreads_star hRest]
      refine ⟨?_, ?_⟩
      · intro u hu
        rcases mem_cons.mp hu with rfl | hu
        · refine ⟨execToken_star c (by rw [hRest]; rfl), ?_⟩
          intro v hv
          rw [hMove] at hv
          obtain rfl := some.inj hv
          rwa [hRest]
        · exact hAll u hu
      · intro string
        rw [matches_star_iff, hSame string]
        constructor
        · rintro (⟨u, hu, h⟩ | ⟨c', s', hEq, h⟩)
          · exact ⟨u, mem_cons_of_mem _ hu, h⟩
          · obtain ⟨rfl, rfl⟩ := List.cons.inj hEq
            exact ⟨s, mem_cons_self .., s, hMove, by rwa [hRest]⟩
        · rintro ⟨u, hu, v, hv, h⟩
          rcases mem_cons.mp hu with rfl | hu
          · rw [hMove] at hv
            obtain rfl := some.inj hv
            rw [hRest] at h
            exact Or.inr ⟨c, string, rfl, h⟩
          · exact Or.inl ⟨u, hu, v, hv, h⟩
    · have hNoNul := ppat.noNul_rest s
      rw [hRest] at hNoNul
      have hOther : byteAt (ppat.rest s) 0 ≠ star := by
        rw [hRest]
        exact hStar
      rcases token_spec hValid hNoNul hStar with ⟨m, rest, Has, hPos,
        hDrop, hRestValid, hToken, hMatches⟩
      have hTo : ppat.rest (s.shift m) = rest := by
        rw [Patterns.rest_shift, hRest, hDrop]
      rw [spreads_other hOther]
      by_cases hHas : Has c
      · have hMove : move ppat c s = some (s.shift m) := by
          simp [move, hRest, byteAt_cons_zero, hStar, (hToken c).1 hHas, hPos.ne']
        refine ⟨?_, ?_⟩
        · intro u hu
          obtain rfl := mem_singleton.mp hu
          refine ⟨by rw [hRest, (hToken c).1 hHas]; simp, ?_⟩
          intro v hv
          rw [hMove] at hv
          obtain rfl := some.inj hv
          rwa [hTo]
        · intro string
          rw [hMatches]
          constructor
          · rintro ⟨c', s', hEq, -, h⟩
            obtain ⟨rfl, rfl⟩ := List.cons.inj hEq
            exact ⟨s, mem_singleton_self s, _, hMove, by rwa [hTo]⟩
          · rintro ⟨u, hu, v, hv, h⟩
            obtain rfl := mem_singleton.mp hu
            rw [hMove] at hv
            obtain rfl := some.inj hv
            rw [hTo] at h
            exact ⟨c, string, rfl, hHas, h⟩
      · have hMove : move ppat c s = none := by
          simp [move, hRest, byteAt_cons_zero, hStar, (hToken c).2 hHas]
        refine ⟨?_, ?_⟩
        · intro u hu
          obtain rfl := mem_singleton.mp hu
          refine ⟨by rw [hRest, (hToken c).2 hHas]; simp, ?_⟩
          simp [hMove]
        · intro string
          rw [hMatches]
          constructor
          · rintro ⟨c', s', hEq, hOwn, -⟩
            obtain ⟨rfl, rfl⟩ := List.cons.inj hEq
            exact (hHas hOwn).elim
          · rintro ⟨u, hu, v, hv, -⟩
            obtain rfl := mem_singleton.mp hu
            simp [hMove] at hv

/- Fewer states fit, where no token is wrong. -/
theorem Fits.mono {base' : List State} {string : List Byte}
    (hFits : Fits ppat base string) (hSub : base'.Subperm base)
    (hValid : ∀ s ∈ base, Valid (ppat.rest s)) : Fits ppat base' string := by
  induction string generalizing base base' with
  | nil => trivial
  | cons c string ih =>
    have hSpread := subperm_flatMap (spreads ppat) hSub
    refine ⟨hSpread.length_le.trans hFits.1, fun s hs => hFits.2.1 s (hSpread.subset hs), ?_⟩
    intro _
    refine ih (hFits.2.2 ?_) (subperm_filterMap _ hSpread) ?_
    · intro s hs
      rcases mem_flatMap.mp hs with ⟨b, hb, hs⟩
      exact ((spread_move_spec c (hValid b hb)).1 s hs).1
    · intro t ht
      rcases mem_filterMap.mp ht with ⟨s, hs, hMove⟩
      rcases mem_flatMap.mp hs with ⟨b, hb, hs⟩
      exact ((spread_move_spec c (hValid b hb)).1 s hs).2 t hMove

/- A state is final before stars alone. -/
theorem final_iff {s : State} (hOk : ppat.Ok)
    (hRange : ppat.InRange s) : ppat.finals.getD s.idx 0 ≤ s.pos ↔ Matches (ppat.rest s) [] := by
  obtain ⟨p, hAt⟩ : ∃ p, ppat.patterns[s.idx]? = some p := ⟨_, getElem?_eq_getElem hRange.1⟩
  rw [hOk.finals, getD_eq_getElem?_getD, getElem?_map, hAt, map_some, getD_some, finalOf_le_iff]
  unfold Patterns.rest Patterns.get
  rw [hAt]

/- The final states. -/
theorem execFinals_iff {ss : List State} (hOk : ppat.Ok)
    (hRange : ∀ s ∈ ss, ppat.InRange s) : execFinals ppat.finals ss = true ↔ Live ppat ss [] := by
  unfold execFinals Live
  rw [List.any_eq_true]
  constructor
  · rintro ⟨s, hs, h⟩
    exact ⟨s, hs, (final_iff hOk (hRange s hs)).mp (of_decide_eq_true h)⟩
  · rintro ⟨s, hs, h⟩
    exact ⟨s, hs, decide_eq_true ((final_iff hOk (hRange s hs)).mpr h)⟩

/-
  The states that a string leads to, once for each way to
  divide it among the tokens and the stars.
-/
def walk (ppat : Patterns) : List State → List Byte → List State
  | base, [] => base
  | base, c :: string =>
    walk ppat ((base.flatMap (spreads ppat)).filterMap
      (move ppat c)) string

section

variable {ppat : Patterns}

theorem walk_append (as bs : List State) (string : List Byte) :
    walk ppat (as ++ bs) string = walk ppat as string ++ walk ppat bs string := by
  induction string generalizing as bs with
  | nil => rfl
  | cons c string ih =>
    unfold walk
    rw [flatMap_append, filterMap_append, ih]

theorem walk_subperm {base base' : List State}
    (hSub : base.Subperm base') (string : List Byte) :
    (walk ppat base string).Subperm (walk ppat base' string) := by
  induction string generalizing base base' with
  | nil => exact hSub
  | cons c string ih =>
    exact ih (subperm_filterMap _ (subperm_flatMap _ hSub))

/- The walk of a list is that of its states. -/
theorem mem_walk {base : List State} {string : List Byte} {t : State} :
    t ∈ walk ppat base string ↔ ∃ b ∈ base, t ∈ walk ppat [b] string := by
  induction base with
  | nil =>
    have hNone : walk ppat [] string = [] := by
      induction string with
      | nil => rfl
      | cons c string ih => exact ih
    simp [hNone]
  | cons b base ih =>
    rw [← singleton_append, walk_append, mem_append, ih]
    simp

/- One step from a state -/
theorem mem_step {base : List State} {c : Byte} {t : State} :
    t ∈ (base.flatMap (spreads ppat)).filterMap
        (move ppat c) ↔
      ∃ b ∈ base, ∃ u ∈ spreads ppat b, move ppat c u = some t := by
  rw [mem_filterMap]
  constructor
  · rintro ⟨u, hu, hMove⟩
    rcases mem_flatMap.mp hu with ⟨b, hb, hu⟩
    exact ⟨b, hb, u, hu, hMove⟩
  · rintro ⟨b, hb, u, hu, hMove⟩
    exact ⟨u, mem_flatMap.mpr ⟨b, hb, hu⟩, hMove⟩

theorem move_idx {c : Byte} {s t : State} (hMove : move ppat c s = some t) : t.idx = s.idx := by
  unfold move at hMove
  dsimp only at hMove
  split at hMove
  case isTrue => exact nomatch hMove
  case isFalse =>
    split at hMove
    case isTrue =>
      obtain rfl := some.inj hMove
      rfl
    case isFalse =>
      split at hMove
      · split at hMove
        case isTrue =>
          obtain rfl := some.inj hMove
          rfl
        case isFalse => exact nomatch hMove
      · exact nomatch hMove
      · exact nomatch hMove

/- A walk stays in its pattern. -/
theorem walk_idx {base : List State} {string : List Byte} {t : State}
    (hMem : t ∈ walk ppat base string) : ∃ b ∈ base, t.idx = b.idx := by
  induction string generalizing base with
  | nil => exact ⟨t, hMem, rfl⟩
  | cons c string ih =>
    rcases ih hMem with ⟨v, hv, hSame⟩
    rcases mem_step.mp hv with ⟨b, hb, u, hu, hMove⟩
    rcases mem_spreads.mp hu with ⟨j, -, rfl⟩
    have hStep := move_idx hMove
    exact ⟨b, hb, hSame.trans hStep⟩

/- A pattern matches if a walk ends before stars alone. -/
theorem walk_matches {s : State} {string : List Byte}
    (hValid : Valid (ppat.rest s)) :
    Matches (ppat.rest s) string ↔ ∃ t ∈ walk ppat [s] string, Matches (ppat.rest t) [] := by
  induction string generalizing s with
  | nil => simp [walk]
  | cons c string ih =>
    rcases spread_move_spec c hValid with ⟨hAll, hSame⟩
    rw [hSame]
    unfold walk
    constructor
    · rintro ⟨u, hu, v, hMove, hMatch⟩
      rcases (ih ((hAll u hu).2 v hMove)).mp hMatch with ⟨t, ht, hEnd⟩
      exact ⟨t, mem_walk.mpr ⟨v, mem_step.mpr ⟨s, mem_singleton_self s, u, hu, hMove⟩, ht⟩, hEnd⟩
    · rintro ⟨t, ht, hEnd⟩
      rcases mem_walk.mp ht with ⟨v, hv, hTail⟩
      rcases mem_step.mp hv with ⟨b, hb, u, hu, hMove⟩
      obtain rfl := mem_singleton.mp hb
      exact ⟨u, hu, v, hMove, (ih ((hAll u hu).2 v hMove)).mpr ⟨t, hTail, hEnd⟩⟩

/- The next states of valid ones -/
theorem valid_step {base : List State} (c : Byte)
    (hValid : ∀ s ∈ base, Valid (ppat.rest s)) :
    (∀ s ∈ base.flatMap (spreads ppat),
        execToken (ppat.rest s) c ≠ .syntaxError) ∧
      ∀ t ∈ (base.flatMap (spreads ppat)).filterMap (move ppat c), Valid (ppat.rest t) := by
  constructor
  · intro s hs
    rcases mem_flatMap.mp hs with ⟨b, hb, hs⟩
    exact ((spread_move_spec c (hValid b hb)).1 s hs).1
  · intro t ht
    rcases mem_step.mp ht with ⟨b, hb, s, hs, hMove⟩
    exact ((spread_move_spec c (hValid b hb)).1 s hs).2 t hMove

/-
  From a list in which nothing is lost the automaton gets to
  all states of the walk, and to none of them more often.
-/
theorem matchFn_walk {string : List Byte} {states : States} (newStates : States) (hOk : ppat.Ok)
    (hRange : ∀ s ∈ states.states, ppat.InRange s) (hHonest : Honest ppat (fun _ => False) states)
    (hValid : ∀ s ∈ states.states, Valid (ppat.rest s))
    (hFits : Fits ppat states.states string) :
    ∃ first second final,
      matchFn ppat states newStates string =
        some (first, second, some final) ∧
      (∀ s ∈ final, ppat.InRange s) ∧
      final.Subperm (walk ppat states.states string) ∧
      ∀ t ∈ walk ppat states.states string, t ∈ final := by
  induction string generalizing states newStates with
  | nil =>
    exact ⟨_, _, _, rfl, hRange, List.Subperm.refl _, fun t ht => ht⟩
  | cons c string ih =>
    rw [matchFn]
    split
    · rename_i hEmpty
      refine ⟨_, _, _, rfl, by simp, nil_subperm, ?_⟩
      intro t ht
      rw [hEmpty] at ht
      rcases mem_walk.mp ht with ⟨b, hb, -⟩
      exact nomatch hb
    · rcases scan_spec c newStates hOk hRange hHonest hFits.1 hFits.2.1 with
        ⟨states', newStates', ok, hRun, hError, hDone⟩
      rcases valid_step c hValid with ⟨hNoError, hNextValid⟩
      rw [hRun, bind_eq_bind, bind_some]
      dsimp only
      cases ok with
      | false =>
        rcases hError rfl with ⟨s, hs, hWrong⟩
        exact (hNoError s hs hWrong).elim
      | true =>
        have hInv := hDone rfl
        have hWithin := hInv.within
        rw [drop_length, flatMap_nil, filterMap_nil, append_nil] at hWithin
        rcases ih states' hInv.newRange hInv.newHonest (fun t ht =>
          hNextValid t (hInv.mem_news_iff_move.mp ht))
          ((hFits.2.2 hNoError).mono hWithin hNextValid) with ⟨first,
          second, final, hRest, hFinalRange, hSub, hAll⟩
        refine ⟨second, first, final, by simp [hRest], hFinalRange,
          hSub.trans (walk_subperm hWithin _), ?_⟩
        intro t ht
        unfold walk at ht
        rcases mem_walk.mp ht with ⟨b, hb, hTail⟩
        exact hAll t (mem_walk.mpr ⟨b, hInv.mem_news_iff_move.mpr hb, hTail⟩)

end

---
-- Calls One After Another
---

/-
  A mark of an earlier call hides a state behind the stars
  that the pattern starts with.
-/
def Hidden (ppat : Patterns) (has : Nat → Bool) (idx : Nat) : Prop :=
  ∃ k, 1 ≤ k ∧ k ≤ leadingStars (ppat.get idx) ∧
    Lost ppat has ⟨idx, k⟩

/-
  If a pattern matches a string that is not empty, then one
  does of which nothing is hidden, or whose stars at the start
  can match the first character.
-/
def Kept (ppat : Patterns) (has : Nat → Bool) (string : List Byte) : Prop :=
  ∀ c s, string = c :: s →
    (∃ idx, idx < ppat.patterns.length ∧
      Matches (ppat.get idx) string) →
    ∃ idx, idx < ppat.patterns.length ∧
      Matches (ppat.get idx) string ∧
      (Hidden ppat has idx → Matches (ppat.get idx) s)

/- Stars at the start match more. -/
theorem matches_of_drop {p s : List Byte} {j : Nat}
    (hLe : j ≤ leadingStars p) (hMatch : Matches (p.drop j) s) : Matches p s := by
  induction p generalizing j with
  | nil => simpa using hMatch
  | cons b p ih =>
    cases j with
    | zero => exact hMatch
    | succ j =>
      rw [leadingStars_cons] at hLe
      split at hLe
      · rename_i hStar
        subst hStar
        exact .skip (ih (by omega) hMatch)
      · omega

theorem move_star {s : State} (c : Byte)
    (hStar : byteAt (ppat.rest s) 0 = star) : move ppat c s = some s := by
  have hSome : ppat.rest s ≠ [] := by
    intro hEmpty
    rw [hEmpty] at hStar
    exact absurd hStar (by decide)
  simp [move, hSome, hStar]

/- What the first step keeps of a pattern. -/
theorem first_step_iff {has : Nat → Bool} {idx : Nat} (c : Byte)
    (string : List Byte) (hValid : Valid (ppat.get idx)) :
    (∃ j, j ≤ leadingStars (ppat.get idx) ∧ (∀ k, 1 ≤ k → k ≤ j → ¬ Lost ppat has ⟨idx, k⟩) ∧ ∃ t,
        move ppat c ⟨idx, j⟩ = some t ∧ Matches (ppat.rest t) string) ↔
        Matches (ppat.get idx) (c :: string) ∧
        (Hidden ppat has idx → Matches (ppat.get idx) string) := by
  have hRest : ppat.rest ⟨idx, 0⟩ = ppat.get idx := rfl
  have hShift : ∀ j, State.shift ⟨idx, 0⟩ j = ⟨idx, j⟩ := by
    intro j
    simp [State.shift]
  have hSpec := spread_move_spec (s := ⟨idx, 0⟩) c (by rwa [hRest])
  rw [hRest] at hSpec
  constructor
  · rintro ⟨j, hj, hFound, t, hMove, hMatch⟩
    refine ⟨(hSpec.2 string).mpr ⟨⟨idx, j⟩, mem_spreads.mpr
      ⟨j, hj, (hShift j).symm⟩, t, hMove, hMatch⟩, ?_⟩
    rintro ⟨k, hLow, hHigh, hLost⟩
    have hLess : j < k := by
      by_contra hNot
      exact hFound k hLow (by omega) hLost
    have hStar := byteAt_leadingStars (hLess.trans_le hHigh)
    rw [move_star (s := ⟨idx, j⟩) c hStar] at hMove
    obtain rfl := some.inj hMove
    exact matches_of_drop hj hMatch
  · rintro ⟨hMatch, hHidden⟩
    by_cases hSome : Hidden ppat has idx
    · rcases hSome with ⟨k, hLow, hHigh, hLost⟩
      have hStar := byteAt_leadingStars (p := ppat.get idx) (j := 0) (by omega)
      exact ⟨0, by omega, by omega, _, move_star (s := ⟨idx, 0⟩) c hStar,
        hHidden ⟨k, hLow, hHigh, hLost⟩⟩
    · rcases (hSpec.2 string).mp hMatch with ⟨u, hu, t, hMove, h⟩
      rcases mem_spreads.mp hu with ⟨j, hj, rfl⟩
      rw [hShift] at hMove
      refine ⟨j, hj, ?_, t, hMove, h⟩
      intro k hLow hHigh hLost
      exact hSome ⟨k, hLow, hHigh.trans hj, hLost⟩

variable {string : CString}

/-
  The final states of one call.  Those of a pattern with
  nothing hidden are all that its walk gets to.
-/
theorem match_spec (lists : States × States) (hOk : ppat.Ok) (hSome : ppat.patterns ≠ [])
    (hValid : ∀ idx, idx < ppat.patterns.length → Valid (ppat.get idx))
    (hFits : Fits ppat (initial ppat) string.chars) :
    ∃ first second final, matchFn ppat (execInitStates ppat lists.1) lists.2
      string.chars = some (first, second, some final) ∧
      (∀ s ∈ final, ppat.InRange s) ∧
      final.Subperm (walk ppat (initial ppat) string.chars) ∧
      (∀ idx, (∃ s ∈ final, s.idx = idx ∧
          Matches (ppat.rest s) []) ↔
        idx < ppat.patterns.length ∧
          Matches (ppat.get idx) string.chars ∧
          ∀ c s, string.chars = c :: s →
            Hidden ppat lists.1.has idx →
            Matches (ppat.get idx) s) ∧
      ∀ idx, idx < ppat.patterns.length →
        ¬ Hidden ppat lists.1.has idx → ∀ t ∈ walk ppat [⟨idx, 0⟩] string.chars, t ∈ final := by
  have hStates : (execInitStates ppat lists.1).states = initial ppat := rfl
  have hRange := initial_range ppat
  have hMem : ∀ s, s ∈ initial ppat ↔ s.idx < ppat.patterns.length ∧ s = ⟨s.idx, 0⟩ := by
    intro s
    unfold initial
    rw [List.mem_map]
    constructor
    · rintro ⟨i, hi, rfl⟩
      exact ⟨mem_range.mp hi, rfl⟩
    · rintro ⟨hi, hEq⟩
      exact ⟨s.idx, mem_range.mpr hi, hEq.symm⟩
  have hInitValid : ∀ s ∈ initial ppat, Valid (ppat.rest s) := by
    intro s hs
    rcases (hMem s).mp hs with ⟨hi, hEq⟩
    rw [hEq]
    exact hValid _ hi
  cases hChars : string.chars with
  | nil =>
    refine ⟨_, _, _, rfl, hRange, List.Subperm.refl _, ?_, ?_⟩
    · intro idx
      rw [hStates]
      constructor
      · rintro ⟨s, hs, rfl, hMatch⟩
        rcases (hMem s).mp hs with ⟨hi, hEq⟩
        rw [hEq] at hMatch
        exact ⟨hi, hMatch, by simp⟩
      · rintro ⟨hi, hMatch, -⟩
        exact ⟨⟨idx, 0⟩, (hMem _).mpr ⟨hi, rfl⟩, rfl, hMatch⟩
    · intro idx hi hNone t ht
      obtain rfl := mem_singleton.mp ht
      rw [hStates]
      exact (hMem _).mpr ⟨hi, rfl⟩
  | cons c s =>
    rw [hChars] at hFits
    rcases scan_spec c lists.2 hOk hRange (init_honest lists.1 hOk) hFits.1 hFits.2.1 with
      ⟨states', newStates', ok, hRun, hError, hDone⟩
    rcases valid_step c hInitValid with ⟨hNoError, hNextValid⟩
    have hOpen : (execInitStates ppat lists.1).states ≠ [] := by
      rw [hStates]
      unfold initial
      simpa using hSome
    cases ok with
    | false =>
      rcases hError rfl with ⟨u, hu, hWrong⟩
      exact (hNoError u hu hWrong).elim
    | true =>
      have hInv := hDone rfl
      have hWithin := hInv.within
      rw [drop_length, flatMap_nil, filterMap_nil, append_nil] at hWithin
      have hNewValid : ∀ t ∈ newStates'.states, Valid (ppat.rest t) := by
        intro t ht
        exact hNextValid t (hWithin.subset ht)
      rcases matchFn_walk states' hOk hInv.newRange hInv.newHonest
        hNewValid ((hFits.2.2 hNoError).mono hWithin hNextValid) with
        ⟨first, second, final, hRest, hFinalRange, hSub, hAll⟩
      have hMatch : matchFn ppat
          (execInitStates ppat lists.1) lists.2 (c :: s) = some (second, first, some final) := by
        rw [matchFn, if_neg hOpen, hRun, bind_eq_bind, bind_some]
        simp [hRest]
      refine ⟨second, first, final, hMatch, hFinalRange,
        hSub.trans (walk_subperm hWithin s), ?_, ?_⟩
      · intro idx
        constructor
        · rintro ⟨t, ht, rfl, hEnd⟩
          rcases mem_walk.mp (hSub.subset ht) with ⟨u, hu, ht⟩
          have hTail := (walk_matches (hNewValid u hu)).mpr ⟨t, ht, hEnd⟩
          rcases hInv.mem_news_iff.mp hu with ⟨b, hb, j, hj, hFound, hMove⟩
          rcases (hMem b).mp hb with ⟨hi, hEq⟩
          have hIdx : t.idx = b.idx := by
            rcases walk_idx ht with ⟨v, hv, hSame⟩
            obtain rfl := mem_singleton.mp hv
            have hStep := move_idx hMove
            exact hSame.trans hStep
          rw [hEq] at hj hFound hMove
          simp only [State.shift, Nat.zero_add] at hFound hMove
          have h := (first_step_iff c s (hValid _ hi)).mp ⟨j, hj, hFound, u, hMove, hTail⟩
          rw [hIdx]
          refine ⟨hi, h.1, ?_⟩
          intro c' s' hEq' hHidden
          obtain ⟨rfl, rfl⟩ := List.cons.inj hEq'
          exact h.2 hHidden
        · rintro ⟨hi, hMatch, hHidden⟩
          rcases (first_step_iff c s (hValid _ hi)).mpr
            ⟨hMatch, hHidden c s rfl⟩ with ⟨j, hj, hFound, u, hMove, hTail⟩
          have hu : u ∈ newStates'.states := by
            refine hInv.mem_news_iff.mpr ⟨⟨idx, 0⟩, (hMem _).mpr ⟨hi, rfl⟩, j, hj, ?_, ?_⟩
            · simpa [State.shift] using hFound
            · simpa [State.shift] using hMove
          rcases (walk_matches (hNewValid u hu)).mp hTail with ⟨t, ht, hEnd⟩
          have hIdx : t.idx = idx := by
            rcases walk_idx ht with ⟨v, hv, hSame⟩
            obtain rfl := mem_singleton.mp hv
            exact hSame.trans (move_idx hMove)
          exact ⟨t, hAll t (mem_walk.mpr ⟨u, hu, ht⟩), hIdx, hEnd⟩
      · intro idx hi hNone t ht
        unfold walk at ht
        rcases mem_walk.mp ht with ⟨u, hu, hTail⟩
        refine hAll t (mem_walk.mpr ⟨u, ?_, hTail⟩)
        rcases mem_step.mp hu with ⟨b, hb, v, hv, hMove⟩
        obtain rfl := mem_singleton.mp hb
        rcases mem_spreads.mp hv with ⟨j, hj, rfl⟩
        refine hInv.mem_news_iff.mpr ⟨_, (hMem _).mpr ⟨hi, rfl⟩, j, hj, ?_, hMove⟩
        intro k hLow hHigh hLost
        refine hNone ⟨k, hLow, hHigh.trans hj, ?_⟩
        simpa [State.shift] using hLost

/- The answer of one call. -/
theorem exec_spec {lists : States × States} (hOk : ppat.Ok) (hSome : ppat.patterns ≠ [])
    (hValid : ∀ idx, idx < ppat.patterns.length → Valid (ppat.get idx))
    (hFits : Fits ppat (initial ppat) string.chars) :
    ∃ lists' b, exec ppat lists string = some (lists', b) ∧
      (b = true ↔ ∃ idx, idx < ppat.patterns.length ∧
      Matches (ppat.get idx) string.chars ∧ ∀ c s, string.chars = c ::
      s → Hidden ppat lists.1.has idx → Matches (ppat.get idx) s) := by
  rcases match_spec lists hOk hSome hValid hFits with
    ⟨first, second, final, hMatch, hRange, -, hFinal, -⟩
  refine ⟨(first, second), execFinals ppat.finals final, ?_, ?_⟩
  · unfold exec
    rw [hMatch]
    rfl
  · rw [execFinals_iff hOk hRange]
    constructor
    · rintro ⟨s, hs, hEnd⟩
      exact ⟨s.idx, (hFinal s.idx).mp ⟨s, hs, rfl, hEnd⟩⟩
    · rintro ⟨idx, hAll⟩
      rcases (hFinal idx).mpr hAll with ⟨s, hs, -, hEnd⟩
      exact ⟨s, hs, hEnd⟩

/- A call in a sequence of calls. -/
def execStep (ppat : Patterns) (lists : States × States)
    (string : CString) : Option (States × States) :=
  (exec ppat lists string).map fun r => r.1

/- The answers of a sequence of calls. -/
def execAll (ppat : Patterns) : States × States → List CString → Option (List Bool)
  | _, [] => some []
  | lists, string :: strings => do
    let (lists, b) ← exec ppat lists string
    let bs ← execAll ppat lists strings
    some (b :: bs)

/- An answer says whether a pattern matches the string. -/
def Answers (ps : List CString) (string : CString) (b : Bool) : Prop :=
  b = true ↔ ∃ p ∈ ps, Matches p.chars string.chars

/-
  Whatever the lists hold, a call answers whether a pattern
  matches exactly when their marks hide nothing that it needs.
-/
theorem exec_answers_iff {ps : List CString} (lists : States × States)
    (hInit : initArray ps = some ppat) (hValid : ∀ p ∈ ps, Valid p.chars)
    (hFits : Fits ppat (initial ppat) string.chars) :
    ∃ lists' b, exec ppat lists string = some (lists', b) ∧
      (Answers ps string b ↔ Kept ppat lists.1.has string.chars) := by
  rcases initArray_ok hInit with ⟨hOk, rfl, hSome⟩
  have hGet : ∀ idx, idx < ppat.patterns.length → ∃ p ∈ ppat.patterns, ppat.get idx = p.chars := by
    intro idx hi
    exact ⟨_, getElem_mem hi, by
      simp [Patterns.get, getElem?_eq_getElem hi]⟩
  have hIdx : ∀ s, (∃ p ∈ ppat.patterns, Matches p.chars s) ↔
      ∃ idx, idx < ppat.patterns.length ∧ Matches (ppat.get idx) s := by
    intro s
    constructor
    · rintro ⟨p, hp, hMatch⟩
      rcases mem_iff_getElem.mp hp with ⟨idx, hi, rfl⟩
      refine ⟨idx, hi, ?_⟩
      simpa [Patterns.get, getElem?_eq_getElem hi] using hMatch
    · rintro ⟨idx, hi, hMatch⟩
      rcases hGet idx hi with ⟨p, hp, hEq⟩
      exact ⟨p, hp, hEq ▸ hMatch⟩
  have hValidAt : ∀ idx, idx < ppat.patterns.length → Valid (ppat.get idx) := by
    intro idx hi
    rcases hGet idx hi with ⟨p, hp, hEq⟩
    exact hEq ▸ hValid p hp
  rcases exec_spec hOk hSome hValidAt hFits with ⟨lists', b, hExec, hAnswer⟩
  refine ⟨lists', b, hExec, ?_⟩
  rw [Answers, hIdx, hAnswer]
  constructor
  · intro hIff c s hEq hAny
    rcases hIff.mpr hAny with ⟨idx, hi, hMatch, hHidden⟩
    exact ⟨idx, hi, hMatch, hHidden c s hEq⟩
  · intro hKept
    constructor
    · rintro ⟨idx, hi, hMatch, -⟩
      exact ⟨idx, hi, hMatch⟩
    · rintro ⟨idx, hi, hMatch⟩
      cases hChars : string.chars with
      | nil =>
        rw [hChars] at hMatch
        exact ⟨idx, hi, hMatch, by simp⟩
      | cons c s =>
        rcases hKept c s hChars ⟨idx, hi, hMatch⟩ with ⟨idx, hi, hMatch, hHidden⟩
        rw [hChars] at hMatch
        refine ⟨idx, hi, hMatch, ?_⟩
        intro c' s' hEq
        obtain ⟨rfl, rfl⟩ := List.cons.inj hEq
        exact hHidden

/-
  The calls of a sequence all answer whether a pattern matches
  exactly when the marks that are left for a call never hide
  what it needs.
-/
theorem exec_correct_iff {ps strings : List CString} {ppat : Patterns}
    (lists : States × States) (hInit : initArray ps = some ppat)
    (hValid : ∀ p ∈ ps, Valid p.chars) (hFits : ∀ string ∈ strings,
    Fits ppat (initial ppat) string.chars) :
    ∃ bs, execAll ppat lists strings = some bs ∧
      (List.Forall₂ (Answers ps) strings bs ↔
        Runs.Guarded (execStep ppat) (fun lists string =>
            Kept ppat lists.1.has string.chars)
          lists strings) := by
  induction strings generalizing lists with
  | nil => exact ⟨[], rfl, by simp [Runs.Guarded]⟩
  | cons string strings ih =>
    rcases exec_answers_iff lists hInit hValid
      (hFits string (mem_cons_self ..)) with
      ⟨lists', b, hExec, hAnswer⟩
    rcases ih lists' fun s hs =>
        hFits s (mem_cons_of_mem _ hs) with
      ⟨bs, hRest, hAnswers⟩
    have hStep : execStep ppat lists string =
        some lists' := by
      rw [execStep, hExec]
      rfl
    refine ⟨b :: bs, ?_, ?_⟩
    · rw [execAll, hExec, bind_eq_bind, bind_some]
      simp [hRest]
    · rw [List.forall₂_cons, hAnswer, hAnswers, Runs.Guarded, hStep]
      simp

/- Two strings are matched one after the other. -/
theorem exec_correct_sample :
    ∃ ppat, initArray samplePatterns = some ppat ∧
      ∃ lists, statesAlloc ppat = some lists ∧
      ∃ bs, execAll ppat lists [sampleString, sampleString] =
          some bs ∧
        (List.Forall₂ (Answers samplePatterns) [sampleString,
            sampleString] bs ↔
            Runs.Guarded (execStep ppat) (fun lists string =>
              Kept ppat lists.1.has string.chars)
            lists [sampleString, sampleString]) := by
  have hValid : ∀ p ∈ samplePatterns, Valid p.chars := by
    intro p hp
    obtain rfl := mem_singleton.mp hp
    exact .char 97 (by unfold Plain; decide) (.star
      (.char 98 (by unfold Plain; decide) .nil))
  refine ⟨(initArray samplePatterns).get (by decide),
    (some_get _).symm, _, rfl, ?_⟩
  exact exec_correct_iff _ (some_get _).symm hValid (by decide)

/-
  The patterns "*a" and "b": the second call with "a" answers
  that none matches, for the first has marked the state behind
  the star.
-/
def forgottenPatterns : List CString :=
  [⟨[42, 97], by decide⟩, ⟨[98], by decide⟩]

def forgottenString : CString :=
  ⟨[97], by decide⟩

theorem exec_forgets :
    ∃ ppat lists,
      initArray forgottenPatterns = some ppat ∧
      statesAlloc ppat = some lists ∧
      (∀ p ∈ forgottenPatterns, Valid p.chars) ∧
      Fits ppat (initial ppat) forgottenString.chars ∧
      execAll ppat lists [forgottenString, forgottenString] =
        some [true, false] ∧
      ∃ p ∈ forgottenPatterns,
        Matches p.chars forgottenString.chars := by
  refine ⟨(initArray forgottenPatterns).get (by decide), _,
    (some_get _).symm, rfl, ?_, by decide, by rfl,
    _, mem_cons_self .., ?_⟩
  · intro p hp
    rcases mem_cons.mp hp with rfl | hp
    · exact .star (.char 97 (by unfold Plain; decide) .nil)
    · obtain rfl := mem_singleton.mp hp
      exact .char 98 (by unfold Plain; decide) .nil
  · exact .skip (.char 97 (by unfold Plain; decide) .nil)

end Efl.Edje
