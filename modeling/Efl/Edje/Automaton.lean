import Efl.Edje.Glob
import Efl.Lib.Lists
import Mathlib.Data.List.Flatten
import Mathlib.Data.List.Perm.Subperm
import Mathlib.Tactic.Ring

/-
  One step of the automaton.

  A list of states is scanned while it grows.  Marks in the
  array `has` that do not stand for a state of the list make
  states get lost.

  Main declarations:
    * `Patterns.Ok`, `Patterns.InRange`
    * `spreads`, `move`
    * `insert_spec`
    * `scan_step`
-/

---
-- States of the Patterns
---

namespace Efl.Edje

open Bytes List

/- What `initArray` makes of an array of patterns. -/
structure Patterns.Ok (ppat : Patterns) : Prop where
  length : ∀ p ∈ ppat.patterns,
    p.chars.length ≤ ppat.maxLength
  finals : ppat.finals = ppat.patterns.map finalOf

variable {ppat : Patterns}

theorem initArray_ok {ps : List CString}
    (hInit : initArray ps = some ppat) : ppat.Ok ∧ ppat.patterns = ps ∧ ps ≠ [] := by
  unfold initArray at hInit
  split at hInit
  · simp at hInit
  · rename_i hSome
    obtain rfl := Option.some.inj hInit
    refine ⟨⟨?_, rfl⟩, rfl, hSome⟩
    intro p hMem
    exact (le_lengthOf p).trans ((Lists.le_foldl_max lengthOf ps 0).2 p hMem)

/- A position that is further on. -/
def State.shift (s : State) (j : Nat) : State :=
  ⟨s.idx, s.pos + j⟩

theorem State.shift_shift (s : State) (i j : Nat) : (s.shift i).shift j = s.shift (i + j) := by
  unfold State.shift
  rw [Nat.add_assoc]

theorem State.shift_zero (s : State) : s.shift 0 = s := rfl

namespace Patterns

variable (ppat : Patterns)

/- A position in a pattern, up to its NUL. -/
def InRange (s : State) : Prop :=
  s.idx < ppat.patterns.length ∧
    s.pos ≤ (ppat.get s.idx).length

/- What is left of the pattern. -/
def rest (s : State) : List Byte :=
  (ppat.get s.idx).drop s.pos

theorem rest_shift (s : State) (j : Nat) : ppat.rest (s.shift j) = (ppat.rest s).drop j := by
  unfold rest State.shift
  rw [drop_drop]

theorem noNul_get (idx : Nat) : 0 ∉ ppat.get idx := by
  unfold get
  split
  · simp
  · rename_i p hAt
    exact p.noNul

theorem noNul_rest (s : State) : 0 ∉ ppat.rest s :=
  fun hMem => ppat.noNul_get s.idx (mem_of_mem_drop hMem)

variable {ppat}

theorem InRange.shift {s : State} {j : Nat}
    (hRange : ppat.InRange s) (hLe : j ≤ (ppat.rest s).length) : ppat.InRange (s.shift j) := by
  rcases hRange with ⟨hIdx, hPos⟩
  unfold rest at hLe
  rw [length_drop] at hLe
  exact ⟨hIdx, by simp only [State.shift]; omega⟩

theorem InRange.le {s : State} (hRange : ppat.InRange s)
    (hOk : ppat.Ok) : s.pos ≤ ppat.maxLength := by
  refine hRange.2.trans ?_
  have hAt := getElem?_eq_getElem hRange.1
  unfold get
  rw [hAt]
  exact hOk.length _ (getElem_mem hRange.1)

/- Codes are in the arrays, and tell the states apart. -/
theorem InRange.code_lt {s : State} (hRange : ppat.InRange s)
    (hOk : ppat.Ok) : ppat.code s < ppat.arrayLen := by
  have hPos := hRange.le hOk
  have hIdx := hRange.1
  unfold code arrayLen
  calc s.idx * (ppat.maxLength + 1) + s.pos
      < s.idx * (ppat.maxLength + 1) + (ppat.maxLength + 1) := by omega
    _ = (ppat.maxLength + 1) * (s.idx + 1) := by ring
    _ ≤ (ppat.maxLength + 1) * ppat.patterns.length := Nat.mul_le_mul_left _ hIdx

theorem InRange.code_inj {s t : State} (hLeft : ppat.InRange s)
    (hRight : ppat.InRange t) (hOk : ppat.Ok) (hSame : ppat.code s = ppat.code t) : s = t := by
  have hs := hLeft.le hOk
  have ht := hRight.le hOk
  have hMod : ∀ u : State, u.pos ≤ ppat.maxLength →
      ppat.code u / (ppat.maxLength + 1) = u.idx ∧ ppat.code u % (ppat.maxLength + 1) = u.pos := by
    intro u hu
    unfold code
    rw [Nat.add_comm, Nat.add_mul_div_right _ _ (by omega), Nat.add_mul_mod_self_right,
      Nat.div_eq_of_lt (by omega), Nat.mod_eq_of_lt (by omega)]
    omega
  have hLeft' := hMod s hs
  have hRight' := hMod t ht
  rw [hSame] at hLeft'
  cases s
  cases t
  simp only [State.mk.injEq]
  exact ⟨hLeft'.1.symm.trans hRight'.1, hLeft'.2.symm.trans hRight'.2⟩

end Patterns

/- The stars at the start. -/
def leadingStars (p : List Byte) : Nat :=
  (p.takeWhile fun b => b = star).length

theorem leadingStars_cons (b : Byte) (p : List Byte) :
    leadingStars (b :: p) =
      if b = star then leadingStars p + 1 else 0 := by
  unfold leadingStars
  rw [takeWhile_cons]
  by_cases hStar : b = star
  · simp [hStar]
  · simp [hStar]

/- The state, and those behind stars that match nothing. -/
def spreads (ppat : Patterns) (s : State) : List State :=
  (List.range (leadingStars (ppat.rest s) + 1)).map s.shift

/- The state after a character, if there is one. -/
def move (ppat : Patterns) (c : Byte) (s : State) : Option State :=
  let tok := ppat.rest s
  if tok = [] then
    none
  else if byteAt tok 0 = star then
    some s
  else
    match execToken tok c with
    | .ok m => if m ≠ 0 then some (s.shift m) else none
    | .overread => none
    | .syntaxError => none

variable {s : State}

theorem mem_spreads {t : State} :
    t ∈ spreads ppat s ↔ ∃ j, j ≤ leadingStars (ppat.rest s) ∧ t = s.shift j := by
  unfold spreads
  rw [List.mem_map]
  constructor
  · rintro ⟨j, hj, rfl⟩
    exact ⟨j, by rw [mem_range] at hj; omega, rfl⟩
  · rintro ⟨j, hj, rfl⟩
    exact ⟨j, by rw [mem_range]; omega, rfl⟩

/- A star is one of these, and the others are behind it. -/
theorem spreads_star {p : List Byte} (hRest : ppat.rest s = star :: p) :
    spreads ppat s = s :: spreads ppat (s.shift 1) := by
  have hNext : ppat.rest (s.shift 1) = p := by
    rw [Patterns.rest_shift, hRest]
    rfl
  unfold spreads
  rw [hRest, hNext, leadingStars_cons, if_pos rfl,
    range_succ_eq_map, map_cons, List.map_map, State.shift_zero]
  congr 1
  apply map_congr_left
  intro j _
  rw [Function.comp_apply, State.shift_shift, Nat.add_comm]

/- Without a star there is only the state. -/
theorem spreads_other (hRest : byteAt (ppat.rest s) 0 ≠ star) : spreads ppat s = [s] := by
  unfold spreads
  have hNone : leadingStars (ppat.rest s) = 0 := by
    cases hCons : ppat.rest s with
    | nil => rfl
    | cons b p =>
      rw [hCons, byteAt_cons_zero] at hRest
      rw [leadingStars_cons, if_neg hRest]
  rw [hNone]
  rfl

theorem leadingStars_succ {p : List Byte} {j : Nat}
    (hLe : j ≤ leadingStars p) (hStar : byteAt (p.drop j) 0 = star) : j + 1 ≤ leadingStars p := by
  induction p generalizing j with
  | nil =>
    rw [drop_nil] at hStar
    exact absurd hStar (by decide)
  | cons b p ih =>
    rw [leadingStars_cons] at hLe ⊢
    split at hLe
    · rename_i hFirst
      rw [if_pos hFirst]
      cases j with
      | zero => omega
      | succ j =>
        have h := ih (j := j) (by omega) hStar
        omega
    · rename_i hFirst
      obtain rfl : j = 0 := by omega
      exact (hFirst hStar).elim

theorem byteAt_leadingStars {p : List Byte} {j : Nat}
    (hLess : j < leadingStars p) : byteAt (p.drop j) 0 = star := by
  induction p generalizing j with
  | nil => simp [leadingStars] at hLess
  | cons b p ih =>
    rw [leadingStars_cons] at hLess
    split at hLess
    · rename_i hFirst
      cases j with
      | zero => exact hFirst
      | succ j => exact ih (by omega)
    · omega

---
-- Insertion
---

open Option Function

/-
  A mark below the size of a list stands for a state of the
  list, except for the states that are lost; these are not
  inserted.
-/
structure Honest (ppat : Patterns) (lost : State → Prop) (list : States) : Prop where
  mark : ∀ s, ppat.InRange s →
    ppat.code s < list.states.length →
    list.has (ppat.code s) = true →
    s ∈ list.states ∨ lost s
  lost : ∀ s, lost s →
    ppat.code s < list.states.length ∧
      list.has (ppat.code s) = true

/- A list that is cleared loses nothing. -/
theorem honest_clear (ppat : Patterns) (list : States) :
    Honest ppat (fun _ => False) list.clear where
  mark _ _ hLess _ := by simp [States.clear] at hLess
  lost _ h := h.elim

variable {lost : State → Prop}

theorem insert_spec {list : States} (hOk : ppat.Ok)
    (hHonest : Honest ppat lost list) (hRange : ppat.InRange s)
    (hRoom : list.states.length < ppat.arrayLen) :
    ∃ list', list.insert ppat s = some list' ∧
      Honest ppat lost list' ∧
      (list'.states = list.states ∧ (s ∈ list.states ∨ lost s) ∨
          list'.states = list.states ++ [s] ∧ ¬ lost s) := by
  have hCode := hRange.code_lt hOk
  unfold States.insert
  dsimp only
  rw [if_neg (by omega)]
  by_cases hMarked : ppat.code s < list.states.length ∧ list.has (ppat.code s) = true
  · rw [if_pos hMarked]
    exact ⟨list, rfl, hHonest, Or.inl ⟨rfl, hHonest.mark s hRange hMarked.1 hMarked.2⟩⟩
  · rw [if_neg hMarked, if_neg (by omega)]
    refine ⟨_, rfl, ⟨?_, ?_⟩, Or.inr ⟨rfl, fun h => hMarked (hHonest.lost s h)⟩⟩
    · intro t ht hLess hHas
      simp only [length_append, length_singleton] at hLess hHas
      have hOther : ppat.code t ≠ list.states.length := by
        intro hEq
        rw [hEq, update_self] at hHas
        simp at hHas
      rw [update_of_ne hOther] at hHas
      by_cases hSame : ppat.code t = ppat.code s
      · obtain rfl := ht.code_inj hRange hOk hSame
        exact Or.inl (by simp)
      · rw [update_of_ne hSame] at hHas
        rcases hHonest.mark t ht (by omega) hHas with h | h
        · exact Or.inl (by simp [h])
        · exact Or.inr h
    · intro t ht
      rcases hHonest.lost t ht with ⟨hLess, hHas⟩
      simp only [length_append, length_singleton]
      refine ⟨by omega, ?_⟩
      rw [update_of_ne (by omega)]
      by_cases hSame : ppat.code t = ppat.code s
      · rw [hSame, update_self]
      · rw [update_of_ne hSame]
        exact hHas

---
-- The Scan of a List
---

/-
  The scan has reached the index `i`, from the states `base`.
  `bound` has all the states that the next list may have, as
  often as it may have them.
-/
structure ScanInv (ppat : Patterns) (c : Byte) (lost : State → Prop)
    (base bound : List State) (i : Nat) (states newStates : States) : Prop where
  kept : ∀ s ∈ base, s ∈ states.states
  range : ∀ s ∈ states.states, ppat.InRange s
  newRange : ∀ s ∈ newStates.states, ppat.InRange s
  honest : Honest ppat lost states
  newHonest : Honest ppat (fun _ => False) newStates
  le : i ≤ states.states.length
  room : i + ((states.states.drop i).flatMap
    (spreads ppat)).length ≤ ppat.arrayLen
  newLength : newStates.states.length ≤ i
  closed : ∀ k s, k < i → states.states[k]? = some s →
    byteAt (ppat.rest s) 0 = star →
    s.shift 1 ∈ states.states ∨ lost (s.shift 1)
  noError : ∀ k s, k < i → states.states[k]? = some s →
    execToken (ppat.rest s) c ≠ .syntaxError
  sound : ∀ s ∈ states.states, ∃ b ∈ base, ∃ j,
    j ≤ leadingStars (ppat.rest b) ∧ s = b.shift j ∧
    ∀ k, 1 ≤ k → k ≤ j → ¬ lost (b.shift k)
  news : ∀ t, t ∈ newStates.states ↔
    ∃ k s, k < i ∧ states.states[k]? = some s ∧
      move ppat c s = some t
  within : (newStates.states ++
    ((states.states.drop i).flatMap (spreads ppat)).filterMap
      (move ppat c)).Subperm bound

variable {states : States}

/- At the start of a scan. -/
theorem scanInv_start (c : Byte) (newStates : States) (hRange : ∀ s ∈ states.states, ppat.InRange s)
    (hHonest : Honest ppat lost states) (hRoom :
    (states.states.flatMap (spreads ppat)).length ≤ ppat.arrayLen) :
    ScanInv ppat c lost states.states ((states.states.flatMap (spreads ppat)).filterMap
      (move ppat c)) 0 states newStates.clear where
  kept _ h := h
  range := hRange
  newRange _ h := by simp [States.clear] at h
  honest := hHonest
  newHonest := honest_clear ppat newStates
  le := by omega
  room := by simpa using hRoom
  newLength := by simp [States.clear]
  closed _ _ h := by omega
  noError _ _ h := by omega
  sound s h := ⟨s, h, 0, by omega, rfl, by omega⟩
  news _ := by simp [States.clear]
  within := by
    rw [drop_zero]
    exact List.Subperm.refl _

/- The state behind a star, or none. -/
def behindStar (ppat : Patterns) (s : State) : Option State :=
  if byteAt (ppat.rest s) 0 = star then some (s.shift 1)
  else none

/- The states that are left, with one processed. -/
theorem spreads_eq (ppat : Patterns) (s : State) :
    spreads ppat s = s :: (behindStar ppat s).toList.flatMap (spreads ppat) := by
  unfold behindStar
  by_cases hStar : byteAt (ppat.rest s) 0 = star
  · rw [if_pos hStar]
    cases hCons : ppat.rest s with
    | nil =>
      rw [hCons] at hStar
      exact absurd hStar (by decide)
    | cons b p =>
      rw [hCons, byteAt_cons_zero] at hStar
      subst hStar
      rw [spreads_star hCons]
      simp
  · rw [if_neg hStar, spreads_other hStar]
    rfl

theorem length_le_spreads (ppat : Patterns) (ss : List State) :
    ss.length ≤ (ss.flatMap (spreads ppat)).length := by
  induction ss with
  | nil => simp
  | cons s ss ih =>
    rw [flatMap_cons, length_append, spreads_eq, length_cons, length_cons]
    omega

theorem perm_shuffle {α : Type} (as bs cs ds : List α) :
    (as ++ bs ++ (cs ++ ds)).Perm (as ++ (bs ++ ds ++ cs)) := by
  rw [append_assoc, append_assoc]
  exact (List.perm_append_comm.append_left bs).append_left as

variable {base bound : List State} {newStates : States}

/-
  One state is processed: `extra` is what is appended to the
  list, and `more` what is appended to the next one.
-/
theorem ScanInv.advance {c : Byte} {i : Nat} {states' newStates' : States}
    (hInv : ScanInv ppat c lost base bound i states newStates)
    (extra more : List State) (hAt : states.states[i]? = some s)
    (hStates : states'.states = states.states ++ extra)
    (hExtra : extra.Sublist (behindStar ppat s).toList)
    (hClosed : ∀ t, behindStar ppat s = some t →
      t ∈ states'.states ∨ lost t) (hFound : ∀ t ∈ extra, ¬ lost t)
    (hNoError : execToken (ppat.rest s) c ≠ .syntaxError)
    (hNew : newStates'.states = newStates.states ++ more)
    (hMore : more.Sublist (move ppat c s).toList)
    (hMoved : ∀ t, move ppat c s = some t →
      t ∈ newStates'.states ∧ ppat.InRange t) (hHonest : Honest ppat lost states')
    (hNewHonest : Honest ppat (fun _ => False) newStates') :
    ScanInv ppat c lost base bound (i + 1) states'
      newStates' := by
  have hBound := (List.getElem?_eq_some_iff.mp hAt).1
  have hMem := mem_of_getElem? hAt
  have hDrop : states.states.drop i = s :: states.states.drop (i + 1) := by
    rw [drop_eq_getElem_cons hBound]
    congr 1
    exact (List.getElem?_eq_some_iff.mp hAt).2
  have hDrop' : states'.states.drop (i + 1) = states.states.drop (i + 1) ++ extra := by
    rw [hStates, drop_append_of_le_length (by omega)]
  have hBehind : ∀ t ∈ extra, behindStar ppat s = some t := by
    intro t ht
    simpa using hExtra.subset ht
  have hStarRange : ∀ t, behindStar ppat s = some t →
      t = s.shift 1 ∧ byteAt (ppat.rest s) 0 = star ∧ ppat.InRange t := by
    intro t ht
    unfold behindStar at ht
    split at ht
    · rename_i hStar
      obtain rfl := some.inj ht
      refine ⟨rfl, hStar, (hInv.range s hMem).shift ?_⟩
      rw [Nat.succ_le_iff, ← byteAt_ne_zero_iff (ppat.noNul_rest s), hStar]
      decide
    · simp at ht
  have hOld : ∀ k t, k < i + 1 → states'.states[k]? = some t →
      k < i ∧ states.states[k]? = some t ∨ k = i ∧ t = s := by
    intro k t hk ht
    rw [hStates, getElem?_append_left (by omega)] at ht
    rcases Nat.lt_succ_iff_lt_or_eq.mp hk with h | rfl
    · exact Or.inl ⟨h, ht⟩
    · exact Or.inr ⟨rfl, some.inj (ht.symm.trans hAt)⟩
  constructor
  · intro b hb
    rw [hStates]
    exact mem_append_left _ (hInv.kept b hb)
  · intro t ht
    rw [hStates] at ht
    rcases mem_append.mp ht with h | h
    · exact hInv.range t h
    · exact (hStarRange t (hBehind t h)).2.2
  · intro t ht
    rw [hNew] at ht
    rcases mem_append.mp ht with h | h
    · exact hInv.newRange t h
    · exact (hMoved t (by simpa using hMore.subset h)).2
  · exact hHonest
  · exact hNewHonest
  · rw [hStates, length_append]
    omega
  · have hRoom := hInv.room
    rw [hDrop, flatMap_cons, spreads_eq] at hRoom
    have hLen := (hExtra.flatMap (spreads ppat)).length_le
    rw [hDrop', flatMap_append]
    simp only [length_append, length_cons] at hRoom hLen ⊢
    omega
  · have hLen := hInv.newLength
    have hOne := hMore.length_le
    have hTwo : (move ppat c s).toList.length ≤ 1 := by
      cases move ppat c s <;> simp
    rw [hNew, length_append]
    omega
  · intro k t hk ht hStar
    rcases hOld k t hk ht with ⟨hLess, hThere⟩ | ⟨rfl, rfl⟩
    · rcases hInv.closed k t hLess hThere hStar with h | h
      · rw [hStates]
        exact Or.inl (mem_append_left _ h)
      · exact Or.inr h
    · apply hClosed
      unfold behindStar
      rw [if_pos hStar]
  · intro k t hk ht
    rcases hOld k t hk ht with ⟨hLess, hThere⟩ | ⟨rfl, rfl⟩
    · exact hInv.noError k t hLess hThere
    · exact hNoError
  · intro t ht
    rw [hStates] at ht
    rcases mem_append.mp ht with h | h
    · exact hInv.sound t h
    · rcases hInv.sound s hMem with ⟨b, hb, j, hj, hEq, hAll⟩
      rcases hStarRange t (hBehind t h) with ⟨rfl, hStar, -⟩
      refine ⟨b, hb, j + 1, ?_, ?_, ?_⟩
      · rw [hEq, Patterns.rest_shift] at hStar
        exact leadingStars_succ hj hStar
      · rw [hEq, State.shift_shift]
      · intro k hLow hHigh
        by_cases hLast : k ≤ j
        · exact hAll k hLow hLast
        · obtain rfl : k = j + 1 := by omega
          rw [← State.shift_shift, ← hEq]
          exact hFound _ h
  · intro t
    constructor
    · intro ht
      rw [hNew, mem_append] at ht
      rcases ht with h | h
      · rcases (hInv.news t).mp h with ⟨k, u, hk, hu, hTo⟩
        refine ⟨k, u, by omega, ?_, hTo⟩
        rw [hStates, getElem?_append_left (by omega)]
        exact hu
      · refine ⟨i, s, by omega, ?_, by simpa using hMore.subset h⟩
        rw [hStates, getElem?_append_left hBound]
        exact hAt
    · rintro ⟨k, u, hk, hu, hTo⟩
      rcases hOld k u hk hu with ⟨hLess, hThere⟩ | ⟨rfl, rfl⟩
      · rw [hNew]
        exact mem_append_left _ ((hInv.news t).mpr ⟨k, u, hLess, hThere, hTo⟩)
      · exact (hMoved t hTo).1
  · refine List.Subperm.trans ?_ hInv.within
    have hSplit : (spreads ppat s).filterMap (move ppat c) =
        (move ppat c s).toList ++ ((behindStar ppat s).toList.flatMap
          (spreads ppat)).filterMap (move ppat c) := by
      rw [spreads_eq, filterMap_cons]
      cases move ppat c s <;> rfl
    have hSub := hMore.append ((hExtra.flatMap (spreads ppat)).filterMap (move ppat c))
    rw [← hSplit] at hSub
    rw [hDrop, hDrop', hNew, flatMap_cons, flatMap_append, filterMap_append, filterMap_append]
    refine (perm_shuffle _ _ _ _).subperm.trans ?_
    exact ((List.Sublist.refl _).append (hSub.append (List.Sublist.refl _))).subperm

/- Stars and the NUL are no wrong tokens. -/
theorem execToken_nil (c : Byte) : execToken [] c ≠ .syntaxError := by
  have hByte : byteAt [] 0 = 0 := rfl
  unfold execToken
  rw [hByte, if_neg (by decide), if_neg (by decide), if_neg (by decide)]
  simp

theorem execToken_star {tok : List Byte} (c : Byte)
    (hStar : byteAt tok 0 = star) : execToken tok c ≠ .syntaxError := by
  unfold execToken
  rw [hStar, if_neg (by decide), if_neg (by decide), if_neg (by decide)]
  simp

/- The tokens that the scan meets are read up to their ends. -/
def NoOverread (ppat : Patterns) (c : Byte) (s : State) : Prop :=
  execToken (ppat.rest s) c ≠ .overread

/- How the scan goes on with one state of the list. -/
theorem scan_eq {c : Byte} {i : Nat} (fuel : Nat)
    (hRange : ppat.InRange s) (hAt : states.states[i]? = some s) :
    scan ppat c (fuel + 1) i states newStates =
      if ppat.rest s = [] then
        scan ppat c fuel (i + 1) states newStates
      else if byteAt (ppat.rest s) 0 = star then do
        let states ← states.insert ppat (s.shift 1)
        let newStates ← newStates.insert ppat s
        scan ppat c fuel (i + 1) states newStates
      else
        match execToken (ppat.rest s) c with
        | .overread => none
        | .syntaxError => some (states, newStates, false)
        | .ok m =>
          if m ≠ 0 then do
            let newStates ← newStates.insert ppat (s.shift m)
            scan ppat c fuel (i + 1) states newStates
          else
            scan ppat c fuel (i + 1) states newStates := by
  have hByte : byteAt (ppat.get s.idx) s.pos = byteAt (ppat.rest s) 0 := (byteAt_drop _ _ 0).symm
  have hEmpty : byteAt (ppat.rest s) 0 = 0 ↔ ppat.rest s = [] := by
    rw [← not_iff_not, ← ne_eq, byteAt_ne_zero_iff (ppat.noNul_rest s), length_pos_iff]
  rw [scan, hAt]
  dsimp only
  rw [if_neg (by have h := hRange.2; omega), hByte]
  simp only [hEmpty]
  rfl

/- One state of the list. -/
theorem scan_step {c : Byte} {i : Nat} (fuel : Nat) (hOk : ppat.Ok)
    (hInv : ScanInv ppat c lost base bound i states newStates)
    (hAt : states.states[i]? = some s) (hToken : NoOverread ppat c s) :
    (scan ppat c (fuel + 1) i states newStates =
          some (states, newStates, false) ∧
        execToken (ppat.rest s) c = .syntaxError) ∨
      ∃ states' newStates',
        scan ppat c (fuel + 1) i states newStates =
          scan ppat c fuel (i + 1) states' newStates' ∧
        ScanInv ppat c lost base bound (i + 1) states'
          newStates' := by
  have hMem := mem_of_getElem? hAt
  have hRange := hInv.range s hMem
  have hBound := (List.getElem?_eq_some_iff.mp hAt).1
  have hRoom := hInv.room
  have hNewLength := hInv.newLength
  rw [drop_eq_getElem_cons hBound, flatMap_cons,
    length_append, (List.getElem?_eq_some_iff.mp hAt).2, spreads_eq, length_cons] at hRoom
  have hSize := length_le_spreads ppat (states.states.drop (i + 1))
  rw [length_drop] at hSize
  rw [scan_eq fuel hRange hAt]
  by_cases hEmpty : ppat.rest s = []
  · right
    rw [if_pos hEmpty]
    refine ⟨states, newStates, rfl, ?_⟩
    have hMove : move ppat c s = none := by
      simp [move, hEmpty]
    have hBehind : behindStar ppat s = none := by
      unfold behindStar
      rw [hEmpty, if_neg (by decide)]
    exact hInv.advance [] [] hAt (by simp) (by simp) (by simp [hBehind])
      (by simp) (by rw [hEmpty]; exact execToken_nil c) (by simp)
      (by simp) (by simp [hMove]) hInv.honest hInv.newHonest
  rw [if_neg hEmpty]
  by_cases hStar : byteAt (ppat.rest s) 0 = star
  · right
    rw [if_pos hStar]
    have hMove : move ppat c s = some s := by
      simp [move, hEmpty, hStar]
    have hBehind : behindStar ppat s = some (s.shift 1) := by
      simp [behindStar, hStar]
    have hNextRange : ppat.InRange (s.shift 1) := hRange.shift (length_pos_iff.mpr hEmpty)
    have hNextSize := length_le_spreads ppat [s.shift 1]
    rw [hBehind] at hRoom
    simp only [toList_some, length_singleton] at hRoom hNextSize
    rcases insert_spec hOk hInv.honest hNextRange (by omega)
      with ⟨states', hInsert, hHonest, hStates⟩
    rcases insert_spec hOk hInv.newHonest hRange (by omega)
      with ⟨newStates', hInsert', hNewHonest, hNew⟩
    rw [hInsert, hInsert']
    refine ⟨states', newStates', rfl, ?_⟩
    have hMore : ∃ more, newStates'.states = newStates.states ++ more ∧
        more.Sublist [s] ∧ s ∈ newStates'.states := by
      rcases hNew with ⟨hSame, hThere | h⟩ | ⟨hOwn, -⟩
      · exact ⟨[], by simp [hSame], by simp, by
          rw [hSame]
          exact hThere⟩
      · exact h.elim
      · exact ⟨[s], hOwn, List.Sublist.refl _, by simp [hOwn]⟩
    rcases hMore with ⟨more, hNew, hMore, hThere⟩
    have hMoved : ∀ t, move ppat c s = some t → t ∈ newStates'.states ∧ ppat.InRange t := by
      intro t ht
      rw [hMove] at ht
      obtain rfl := some.inj ht
      exact ⟨hThere, hRange⟩
    rw [← toList_some, ← hMove] at hMore
    rcases hStates with ⟨hSame, hOld⟩ | ⟨hOwn, hFound⟩
    · refine hInv.advance [] _ hAt (by simp [hSame])
        (by simp) ?_ (by simp) (execToken_star c hStar) hNew hMore hMoved hHonest hNewHonest
      intro t ht
      rw [hBehind] at ht
      obtain rfl := some.inj ht
      rw [hSame]
      exact hOld
    · refine hInv.advance _ _ hAt hOwn (by simp [hBehind]) ?_ ?_
        (execToken_star c hStar) hNew hMore hMoved hHonest hNewHonest
      · intro t ht
        rw [hBehind] at ht
        obtain rfl := some.inj ht
        exact Or.inl (by simp [hOwn])
      · intro t ht
        obtain rfl := mem_singleton.mp ht
        exact hFound
  rw [if_neg hStar]
  have hBehind : behindStar ppat s = none := by
    simp [behindStar, hStar]
  cases hResult : execToken (ppat.rest s) c with
  | overread => exact (hToken hResult).elim
  | syntaxError => exact Or.inl ⟨rfl, rfl⟩
  | ok m =>
    right
    dsimp only
    by_cases hSome : m ≠ 0
    · rw [if_pos hSome]
      have hMove : move ppat c s = some (s.shift m) := by
        simp [move, hEmpty, hStar, hResult, hSome]
      have hNextRange : ppat.InRange (s.shift m) :=
        hRange.shift (execToken_le (ppat.noNul_rest s) hEmpty hResult)
      rcases insert_spec hOk hInv.newHonest hNextRange
        (by omega) with ⟨newStates', hInsert, hNewHonest, hNew⟩
      rw [hInsert]
      refine ⟨states, newStates', rfl, ?_⟩
      rcases hNew with ⟨hSame, hThere | h⟩ | ⟨hOwn, -⟩
      · refine hInv.advance [] [] hAt (by simp) (by simp)
          (by simp [hBehind]) (by simp) (by simp [hResult])
          (by simp [hSame]) (by simp) ?_ hInv.honest hNewHonest
        intro t ht
        rw [hMove] at ht
        obtain rfl := some.inj ht
        rw [hSame]
        exact ⟨hThere, hNextRange⟩
      · exact h.elim
      · refine hInv.advance [] _ hAt (by simp) (by simp)
          (by simp [hBehind]) (by simp) (by simp [hResult]) hOwn
          (by simp [hMove]) ?_ hInv.honest hNewHonest
        intro t ht
        rw [hMove] at ht
        obtain rfl := some.inj ht
        exact ⟨by simp [hOwn], hNextRange⟩
    · rw [if_neg hSome]
      have hMove : move ppat c s = none := by
        simp [move, hEmpty, hStar, hResult, hSome]
      refine ⟨states, newStates, rfl, ?_⟩
      exact hInv.advance [] [] hAt (by simp) (by simp)
        (by simp [hBehind]) (by simp) (by simp [hResult]) (by simp)
        (by simp) (by simp [hMove]) hInv.honest hInv.newHonest

/-
  A whole scan: the list that it starts with, the next one,
  and what is known of both, unless a token is wrong.
-/
theorem scan_run {c : Byte} {i fuel : Nat} (hOk : ppat.Ok)
    (hInv : ScanInv ppat c lost base bound i states newStates) (hFuel : ppat.arrayLen ≤ fuel + i)
    (hTokens : ∀ b ∈ base, ∀ s ∈ spreads ppat b, NoOverread ppat c s) :
    ∃ states' newStates' ok,
      scan ppat c fuel i states newStates =
        some (states', newStates', ok) ∧
      (ok = false → ∃ s ∈ states'.states,
        execToken (ppat.rest s) c = .syntaxError) ∧
      (∀ s ∈ states'.states, ∃ b ∈ base, s ∈ spreads ppat b) ∧
      (ok = true → ScanInv ppat c lost base bound states'.states.length states' newStates') := by
  have hSpread : ∀ {i states newStates},
      ScanInv ppat c lost base bound i states newStates →
      ∀ s ∈ states.states, ∃ b ∈ base, s ∈ spreads ppat b := by
    intro i states newStates hInv s hs
    rcases hInv.sound s hs with ⟨b, hb, j, hj, hEq, -⟩
    exact ⟨b, hb, mem_spreads.mpr ⟨j, hj, hEq⟩⟩
  induction fuel generalizing i states newStates with
  | zero =>
    have hRoom := hInv.room
    have hLe := hInv.le
    have hSize := length_le_spreads ppat (states.states.drop i)
    rw [length_drop] at hSize
    obtain rfl : i = states.states.length := by omega
    refine ⟨states, newStates, true, ?_, by simp, hSpread hInv, fun _ => hInv⟩
    rw [scan, getElem?_eq_none (le_refl _)]
  | succ fuel ih =>
    cases hAt : states.states[i]? with
    | none =>
      have hLe := hInv.le
      rw [List.getElem?_eq_none_iff] at hAt
      obtain rfl : i = states.states.length := by omega
      refine ⟨states, newStates, true, ?_, by simp, hSpread hInv, fun _ => hInv⟩
      rw [scan, getElem?_eq_none (le_refl _)]
    | some s =>
      have hMem := mem_of_getElem? hAt
      rcases hSpread hInv s hMem with ⟨b, hb, hIn⟩
      rcases scan_step fuel hOk hInv hAt (hTokens b hb s hIn) with
        ⟨hRun, hError⟩ | ⟨states', newStates', hRun, hNext⟩
      · exact ⟨states, newStates, false, hRun, fun _ =>
          ⟨s, hMem, hError⟩, hSpread hInv, by simp⟩
      · rw [hRun]
        exact ih hNext (by omega)

end Efl.Edje
