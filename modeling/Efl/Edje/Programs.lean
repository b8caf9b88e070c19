import Efl.Edje.Correctness

/-
  The programs that are run for a signal.

  The final states of a signal and of a source are looked
  through in two loops; a program is run for each pair of
  them that accepts.

  Main declarations:
    * `checkFinals`, `programsExec`
    * `endings`, the ways in which a pattern takes a string
    * `count_checkFinals`
    * `accepting_spec`
-/

---
-- Programs
---

namespace Efl.Edje

open Bytes

variable {P : Type}

/-
  The inner loop of `edje_match_programs_exec_check_finals`:
  the indices of the programs that `func` is called with, and
  whether it has never returned `EINA_TRUE`.
-/
def checkSources (sourceFinals : List Nat) (programs : List (Option P)) (func : P → Bool)
    (idx : Nat) : List State → List Nat × Bool
  | [] => ([], true)
  | t :: ts =>
    if idx = t.idx ∧ sourceFinals.getD t.idx 0 ≤ t.pos then
      match programs.getD idx none with
      | none => checkSources sourceFinals programs func idx ts
      | some pr =>
        if func pr then
          ([idx], false)
        else
          let (calls, r) :=
            checkSources sourceFinals programs func idx ts
          (idx :: calls, r)
    else
      checkSources sourceFinals programs func idx ts

/- `edje_match_programs_exec_check_finals` -/
def checkFinals (signalFinals sourceFinals : List Nat)
    (programs : List (Option P)) (func : P → Bool) (sourceStates : List State) :
    List State → List Nat × Bool
  | [] => ([], true)
  | s :: ss =>
    if signalFinals.getD s.idx 0 ≤ s.pos then
      let (calls, r) := checkSources sourceFinals programs
        func s.idx sourceStates
      if r then
        let (calls', r') := checkFinals signalFinals
          sourceFinals programs func sourceStates ss
        (calls ++ calls', r')
      else
        (calls, false)
    else
      checkFinals signalFinals sourceFinals programs func
        sourceStates ss

/-
  `edje_match_programs_exec`: the lists that it leaves, the
  calls, and the result.
-/
def programsExec (signal source : Patterns) (signalLists sourceLists : States × States)
    (sig src : CString) (programs : List (Option P)) (func : P → Bool) :
    Option (((States × States) × (States × States)) ×
      List Nat × Bool) := do
  let (a, b, signalResult) ← matchFn signal
    (execInitStates signal signalLists.1) signalLists.2
    sig.chars
  let (c, d, sourceResult) ← matchFn source
    (execInitStates source sourceLists.1) sourceLists.2
    src.chars
  match signalResult, sourceResult with
  | some ss, some ts =>
    some (((a, b), (c, d)),
      checkFinals signal.finals source.finals programs func
        ts ss)
  | _, _ => some (((a, b), (c, d)), [], false)

---
-- Calls
---

open List

/- A final state of the pattern with an index. -/
def accepting (finals : List Nat) (idx : Nat) (s : State) : Bool :=
  decide (s.idx = idx ∧ finals.getD s.idx 0 ≤ s.pos)

/- The calls for one final state of the signal -/
theorem checkSources_spec (sourceFinals : List Nat)
    (programs : List (Option P)) (idx : Nat) (ts : List State) :
    checkSources sourceFinals programs (fun _ => false) idx ts =
      (if (programs.getD idx none).isSome then
        List.replicate (ts.countP (accepting sourceFinals idx)) idx
      else [], true) := by
  induction ts with
  | nil => simp [checkSources]
  | cons t ts ih =>
    unfold checkSources
    rw [ih, countP_cons]
    by_cases hHere : idx = t.idx ∧ sourceFinals.getD t.idx 0 ≤ t.pos
    · have hAccept : accepting sourceFinals idx t = true := decide_eq_true ⟨hHere.1.symm, hHere.2⟩
      rw [if_pos hHere, if_pos hAccept]
      cases hProgram : programs.getD idx none with
      | none => rfl
      | some pr => rfl
    · have hReject : ¬ accepting sourceFinals idx t = true :=
        fun hAccept => hHere ⟨(of_decide_eq_true hAccept).1.symm, (of_decide_eq_true hAccept).2⟩
      rw [if_neg hHere, if_neg hReject, Nat.add_zero]

/- A program is called for each pair of final states. -/
theorem count_checkFinals (signalFinals sourceFinals : List Nat)
    (programs : List (Option P)) (ss ts : List State) (idx : Nat) :
    let r := checkFinals signalFinals sourceFinals programs (fun _ => false) ts ss
    r.2 = true ∧
      r.1.count idx =
        if (programs.getD idx none).isSome then
          ss.countP (accepting signalFinals idx) * ts.countP (accepting sourceFinals idx)
        else 0 := by
  induction ss with
  | nil => simp [checkFinals]
  | cons s ss ih =>
    rcases ih with ⟨hResult, hCount⟩
    dsimp only
    unfold checkFinals
    rw [countP_cons, checkSources_spec]
    by_cases hFinal : signalFinals.getD s.idx 0 ≤ s.pos
    · rw [if_pos hFinal]
      dsimp only
      rw [if_pos rfl]
      refine ⟨hResult, ?_⟩
      dsimp only
      rw [count_append, hCount]
      by_cases hIdx : s.idx = idx
      · subst hIdx
        have hAccept : accepting signalFinals s.idx s = true := decide_eq_true ⟨rfl, hFinal⟩
        rw [if_pos hAccept]
        split
        case isTrue =>
          rw [count_replicate_self]
          ring
        case isFalse => rfl
      · have hReject : ¬ accepting signalFinals idx s = true :=
          fun hAccept => hIdx (of_decide_eq_true hAccept).1
        have hOther : (if (programs.getD s.idx none).isSome then
            List.replicate (ts.countP (accepting sourceFinals s.idx)) s.idx
            else []).count idx = 0 := by
          rw [count_eq_zero]
          split
          case isTrue =>
            intro hMem
            exact hIdx (eq_of_mem_replicate hMem).symm
          case isFalse => exact not_mem_nil
        rw [hOther, if_neg hReject, Nat.zero_add, Nat.add_zero]
    · have hReject : ¬ accepting signalFinals idx s = true :=
        fun hAccept => hFinal (of_decide_eq_true hAccept).2
      rw [if_neg hFinal, if_neg hReject, Nat.add_zero]
      exact ⟨hResult, hCount⟩

---
-- Ways of Matching
---

/-
  The ways to divide a string among the tokens and the stars of
  a pattern, each as the position at which it ends.
-/
def endings (ppat : Patterns) (idx : Nat) (string : List Byte) : List State :=
  (walk ppat [⟨idx, 0⟩] string).filter
    (accepting ppat.finals idx)

/-
  Nothing of the pattern is hidden by marks, or the stars that
  it starts with can take the first character.
-/
def Shown (ppat : Patterns) (has : Nat → Bool) (idx : Nat) (string : List Byte) : Prop :=
  ∀ c s, string = c :: s →
    Hidden ppat has idx → Matches (ppat.get idx) s

variable {ppat : Patterns}

/- Other patterns have no final states of this one. -/
theorem countP_walk_other {base : List State} {idx : Nat}
    (string : List Byte) (hOther : ∀ b ∈ base, b.idx ≠ idx) :
    (walk ppat base string).countP (accepting ppat.finals idx) = 0 := by
  rw [countP_eq_zero]
  intro t ht hAccept
  rcases walk_idx ht with ⟨b, hb, hSame⟩
  have hIdx := (of_decide_eq_true hAccept).1
  exact hOther b hb (hSame.symm.trans hIdx)

theorem countP_walk_initial {idx : Nat} (string : List Byte)
    (hIdx : idx < ppat.patterns.length) :
    (walk ppat (initial ppat) string).countP
        (accepting ppat.finals idx) = (endings ppat idx string).length := by
  have hNodup : ((initial ppat).map State.idx).Nodup := by
    have hIndices : (initial ppat).map State.idx = List.range ppat.patterns.length := by
      unfold initial
      rw [List.map_map]
      exact List.map_id _
    rw [hIndices]
    exact nodup_range
  have hMem : (⟨idx, 0⟩ : State) ∈ initial ppat := mem_map.mpr ⟨idx, mem_range.mpr hIdx, rfl⟩
  rcases append_of_mem hMem with ⟨before, after, hSplit⟩
  rw [hSplit, map_append, map_cons, nodup_append] at hNodup
  rcases hNodup with ⟨-, hAfter, hApart⟩
  have hLeft : ∀ b ∈ before, b.idx ≠ idx := by
    intro b hb
    exact hApart _ (List.mem_map_of_mem hb) _ (mem_cons_self ..)
  have hRight : ∀ b ∈ after, b.idx ≠ idx := by
    intro b hb hSame
    exact (nodup_cons.mp hAfter).1 (mem_map.mpr ⟨b, hb, hSame⟩)
  rw [hSplit, ← singleton_append, walk_append, walk_append,
    countP_append, countP_append, countP_walk_other string hLeft,
    countP_walk_other string hRight, Nat.zero_add, Nat.add_zero]
  unfold endings
  exact countP_eq_length_filter

/-
  The final states of a pattern: at most one for each way of
  matching, and one at least when it matches.
-/
theorem accepting_spec {string : CString} (lists : States × States)
    (hOk : ppat.Ok) (hSome : ppat.patterns ≠ [])
    (hValid : ∀ idx, idx < ppat.patterns.length → Valid (ppat.get idx))
    (hFits : Fits ppat (initial ppat) string.chars) :
    ∃ first second final, matchFn ppat (execInitStates ppat lists.1) lists.2
      string.chars = some (first, second, some final) ∧
      ∀ idx, idx < ppat.patterns.length →
        final.countP (accepting ppat.finals idx) ≤
          (endings ppat idx string.chars).length ∧
        (0 < final.countP (accepting ppat.finals idx) ↔
          Matches (ppat.get idx) string.chars ∧
            Shown ppat lists.1.has idx string.chars) ∧
        (¬ Hidden ppat lists.1.has idx →
          final.countP (accepting ppat.finals idx) = 1 →
          ∀ t ∈ endings ppat idx string.chars, ∀ t' ∈ endings ppat idx string.chars, t = t') := by
  rcases match_spec lists hOk hSome hValid hFits with
    ⟨first, second, final, hMatch, hRange, hSub, hFinal, hAll⟩
  refine ⟨first, second, final, hMatch, fun idx hIdx =>
    ⟨?_, ?_, ?_⟩⟩
  · rw [← countP_walk_initial string.chars hIdx]
    exact hSub.countP_le _
  · rw [countP_pos_iff]
    constructor
    · rintro ⟨s, hs, hAccept⟩
      rcases of_decide_eq_true hAccept with ⟨rfl, hEnd⟩
      exact ((hFinal s.idx).mp ⟨s, hs, rfl, (final_iff hOk (hRange s hs)).mp hEnd⟩).2
    · intro hBoth
      rcases (hFinal idx).mpr ⟨hIdx, hBoth⟩ with ⟨s, hs, rfl, hEnd⟩
      exact ⟨s, hs, decide_eq_true ⟨rfl, (final_iff hOk (hRange s hs)).mpr hEnd⟩⟩
  · intro hNone hOne t ht t' ht'
    rcases mem_filter.mp ht with ⟨hWalk, hAccept⟩
    rcases mem_filter.mp ht' with ⟨hWalk', hAccept'⟩
    rw [countP_eq_length_filter, length_eq_one_iff] at hOne
    rcases hOne with ⟨u, hOnly⟩
    have hHere : t ∈ final.filter (accepting ppat.finals idx) :=
      mem_filter.mpr ⟨hAll idx hIdx hNone t hWalk, hAccept⟩
    have hHere' : t' ∈ final.filter (accepting ppat.finals idx) :=
      mem_filter.mpr ⟨hAll idx hIdx hNone t' hWalk', hAccept'⟩
    rw [hOnly] at hHere hHere'
    rw [mem_singleton.mp hHere, mem_singleton.mp hHere']

---
-- Once
---

open Option

/- The program is there, and its patterns match. -/
structure Wanted (signal source : Patterns) (programs : List (Option P))
    (sig src : CString) (idx : Nat) : Prop where
  there : (programs.getD idx none).isSome = true
  signal : Matches (signal.get idx) sig.chars
  source : Matches (source.get idx) src.chars

/- `func` is called once for what is wanted, and for no more. -/
def Once (signal source : Patterns) (programs : List (Option P))
    (sig src : CString) (calls : List Nat) : Prop :=
  ∀ idx,
    (Wanted signal source programs sig src idx →
      calls.count idx = 1) ∧
    (¬ Wanted signal source programs sig src idx →
      calls.count idx = 0)

/-
  The final states of a wanted pattern are there, and there is
  one way to get to them.
-/
def OneWay (ppat : Patterns) (lists : States × States) (idx : Nat) (string : CString) : Prop :=
  Shown ppat lists.1.has idx string.chars ∧
    (endings ppat idx string.chars).length = 1

/- If nothing is hidden, then there is one final state. -/
def OneEnd (ppat : Patterns) (lists : States × States) (idx : Nat) (string : CString) : Prop :=
  Shown ppat lists.1.has idx string.chars ∧
    (¬ Hidden ppat lists.1.has idx →
      ∀ t ∈ endings ppat idx string.chars,
        ∀ t' ∈ endings ppat idx string.chars, t = t')

theorem getD_isSome_lt {α : Type} {xs : List (Option α)} {i : Nat}
    (hSome : (xs.getD i none).isSome = true) : i < xs.length := by
  by_contra hNot
  rw [getD_eq_getElem?_getD, getElem?_eq_none (Nat.le_of_not_lt hNot)] at hSome
  exact nomatch hSome

/- The patterns of an array are valid. -/
theorem valid_get {ppat : Patterns} (hValid : ∀ p ∈ ppat.patterns, Valid p.chars) (idx : Nat)
    (hIdx : idx < ppat.patterns.length) : Valid (ppat.get idx) := by
  unfold Patterns.get
  rw [getElem?_eq_getElem hIdx]
  exact hValid _ (getElem_mem hIdx)

/- The patterns "*a*" and "*" of one program -/
def onceSignals : List CString :=
  [⟨[42, 97, 42], by decide⟩]

def onceSources : List CString :=
  [⟨[42], by decide⟩]

theorem onceSignals_valid : ∀ p ∈ onceSignals, Valid p.chars := by
  intro p hp
  obtain rfl := mem_singleton.mp hp
  exact .star (.char 97 (by unfold Plain; decide) (.star .nil))

theorem onceSources_valid : ∀ p ∈ onceSources, Valid p.chars := by
  intro p hp
  obtain rfl := mem_singleton.mp hp
  exact .star .nil

end Efl.Edje
