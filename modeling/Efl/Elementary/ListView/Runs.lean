import Efl.Elementary.ListView.Edits

/-
  Runs of the calls on a segmented array, beside a list.

  Main declarations:
    * `Op`, `step`
    * `Admissible`, `Sound`
    * `seg_array_correct`
-/

---
-- Steps
---

namespace Efl.Elementary.ListView

/- The array, and a list of the models of its items -/
structure State where
  array : SegArray
  list : List Nat

inductive Op where
  | insert (index model : Nat)
  | insertValue (v : Value)
  | remove (index : Nat)
  | flush

def Value.models : Value → List Nat
  | .object model => [model]
  | .array models => models
  | .other => []

def step (st : State) : Op → Option State
  | .insert index model => do
    let pd ← insert st.array index model
    some ⟨pd, st.list.insertIdx index model⟩
  | .insertValue v => do
    let pd ← insertValue st.array st.list.length v
    some ⟨pd, st.list ++ v.models⟩
  | .remove index => do
    let (pd, _) ← remove st.array index
    some ⟨pd, st.list.eraseIdx index⟩
  | .flush => some ⟨flush st.array, []⟩

/- The index is one of the list. -/
def Admissible (st : State) : Op → Prop
  | .insert index _ => index ≤ st.list.length
  | .insertValue _ => True
  | .remove index => index < st.list.length
  | .flush => True

/- One item more, at the end -/
def append (pd : SegArray) (model : Nat) : Option SegArray :=
  insertObject pd pd.count model

/-
  Nothing is inserted by index, there is room at the end for
  each item of a value, and what is removed is found.
-/
def Sound (pd : SegArray) : Op → Prop
  | .insert _ _ => False
  | .insertValue v =>
    Runs.Guarded append (fun pd _ => Room pd) pd v.models
  | .remove index => Removable pd index
  | .flush => True

/- The array is the list. -/
structure Correct (st : State) : Prop where
  count : st.array.count = st.list.length
  items : ∀ i (h : i < st.list.length), ∃ x,
    getAt st.array i = some (true, some x) ∧
      (st.array.item x).children = st.list[i] ∧
      indexGet st.array x = i

---
-- Insertion by Index
---

section

variable {pd pd' : SegArray}

end

---
-- Runs
---

open CInt RedBlack List Option

/- The items have the models of the list. -/
def Models (st : State) : Prop :=
  ∃ t its, Inv st.array t its ∧
    its.map (fun x => (st.array.item x).children) = st.list

theorem Models.correct {st : State} (hModels : Models st) : Correct st := by
  rcases hModels with ⟨t, its, hInv, hList⟩
  have hLength := congrArg List.length hList
  rw [length_map] at hLength
  constructor
  case count => rw [hInv.count, hLength]
  case items =>
    intro i h
    have hIndex : i < its.length := hLength ▸ h
    rcases hInv.getAt hIndex with ⟨hGet, hAt⟩
    refine ⟨its[i], hGet, ?_, hAt⟩
    simp only [← hList, getElem_map]

theorem Models.count {st : State} (hModels : Models st) :
    st.array.count = st.list.length := hModels.correct.count

variable {pd : SegArray} {l : List Nat}

theorem append_spec (model : Nat) (hModels : Models ⟨pd, l⟩)
    (hRoom : Room pd) : ∃ pd', append pd model = some pd' ∧ Models ⟨pd', l ++ [model]⟩ := by
  rcases hModels with ⟨t, its, hInv, hList⟩
  rcases insertObject_spec model hInv hRoom with ⟨pd', t', hInsert, hInv', hAppended⟩
  refine ⟨pd', hInsert, t', its ++ [pd.items], hInv', ?_⟩
  have hKept : its.map (fun x => (pd'.item x).children) = its.map fun x => (pd.item x).children :=
    map_congr_left fun x hx =>
      hAppended.kept x (hInv.items x hx)
  dsimp only at hList ⊢
  rw [map_append, map_singleton, hAppended.new, hKept, hList]

theorem insertObjects_spec {models : List Nat} (hModels : Models ⟨pd, l⟩)
    (hGuarded : Runs.Guarded append (fun pd _ => Room pd) pd models) :
    ∃ pd', insertObjects pd pd.count models = some pd' ∧ Models ⟨pd', l ++ models⟩ := by
  induction models generalizing pd l with
  | nil =>
    refine ⟨pd, rfl, ?_⟩
    rw [append_nil]
    exact hModels
  | cons model models ih =>
    rcases append_spec model hModels hGuarded.1 with ⟨pd₁, hAppend, hModels₁⟩
    rcases ih hModels₁ (hGuarded.2 pd₁ hAppend) with ⟨pd', hRest, hModels'⟩
    have hCount := hModels.count
    have hCount₁ := hModels₁.count
    have hSmall := hModels₁
    rcases hSmall with ⟨t, its, hInv, hList⟩
    have hLength := congrArg List.length hList
    have hBound := hInv.small
    unfold intMax at hBound
    simp only [length_map, length_append, length_singleton] at hLength hCount hCount₁
    have hNext : wrap (pd.count + 1) = pd₁.count := by
      rw [wrap_of_inRange] <;> [skip; unfold InRange] <;> omega
    refine ⟨pd', ?_, ?_⟩
    · rw [insertObjects,
        show insertObject pd pd.count model = some pd₁ from
          hAppend, hNext]
      exact hRest
    · rw [append_assoc, singleton_append] at hModels'
      exact hModels'

theorem insertValue_spec {v : Value} (hModels : Models ⟨pd, l⟩)
    (hGuarded : Runs.Guarded append (fun pd _ => Room pd) pd v.models) :
    ∃ pd', insertValue pd pd.count v = some pd' ∧ Models ⟨pd', l ++ v.models⟩ := by
  cases v with
  | object model => exact append_spec model hModels hGuarded.1
  | array models => exact insertObjects_spec hModels hGuarded
  | other => exact insertObjects_spec hModels hGuarded

/- Each call does to the array what it does to the list. -/
theorem step_spec {st : State} {op : Op} (hModels : Models st)
    (hAdmissible : Admissible st op) (hSound : Sound st.array op) :
    ∃ st', step st op = some st' ∧ Models st' := by
  cases op with
  | insert index model => exact hSound.elim
  | insertValue v =>
    rcases insertValue_spec hModels hSound with ⟨pd', hInsert, hModels'⟩
    rw [hModels.count] at hInsert
    exact ⟨⟨pd', st.list ++ v.models⟩, by unfold step; dsimp only; rw [hInsert]; rfl, hModels'⟩
  | remove index =>
    rcases hModels with ⟨t, its, hInv, hList⟩
    have hIndex : index < its.length := by
      have hLength := congrArg List.length hList
      rw [length_map] at hLength
      exact hLength ▸ hAdmissible
    rcases remove_spec hInv hIndex hSound with ⟨pd', hRemove, hInv', hChildren⟩
    refine ⟨⟨pd', st.list.eraseIdx index⟩,
      by unfold step; dsimp only; rw [hRemove]; rfl, t, its.eraseIdx index, hInv', ?_⟩
    simp only [hChildren, ← hList, eraseIdx_map]
  | flush =>
    rcases hModels with ⟨t, its, hInv, hList⟩
    refine ⟨_, rfl, .nil, [], ?_, rfl⟩
    constructor
    case repr => exact rfl
    case nodup => exact nodup_nil
    case nodes => exact fun n hn => absurd hn (by simp)
    case covers => exact rfl
    case itemsNodup => exact nodup_nil
    case items => exact fun x hx => absurd hx (by simp)
    case count => exact rfl
    case small => exact show (0 : Int) ≤ intMax by decide
    case step => exact hInv.step

theorem setup_spec {size : Int} (hSize : 0 < size) : Models ⟨setup size, []⟩ := by
  refine ⟨.nil, [], ?_, rfl⟩
  constructor
  case repr => exact rfl
  case nodup => exact nodup_nil
  case nodes => exact fun n hn => absurd hn (by simp)
  case covers => exact rfl
  case itemsNodup => exact nodup_nil
  case items => exact fun x hx => absurd hx (by simp)
  case count => exact rfl
  case small => exact show (0 : Int) ≤ intMax by decide
  case step => exact hSize

/- An array that only sound calls are made on is its list. -/
theorem seg_array_correct {size : Int} {ops : List Op}
    (hSize : 0 < size) (hGuarded : Runs.Guarded step (fun st op =>
    Admissible st op ∧ Sound st.array op) ⟨setup size, []⟩ ops) :
    ∃ st, Runs.run step ⟨setup size, []⟩ ops = some st ∧
      Correct st := by
  rcases Runs.run_of_guarded Models (fun st op hModels hOk =>
      step_spec hModels hOk.1 hOk.2) (setup_spec hSize) hGuarded with
    ⟨st, hRun, hModels⟩
  exact ⟨st, hRun, hModels.correct⟩

theorem seg_array_correct_sample :
    ∃ st,
      Runs.run step ⟨setup 2, []⟩
        [.insertValue (.array [5, 6]), .remove 1] = some st ∧
      Correct st := by
  apply seg_array_correct (by decide)
  refine ⟨⟨trivial, ⟨by decide, ?_, ?_⟩, ?_⟩, ?_⟩
  · exact fun n hFound => nomatch hFound
  · intro _ t hRepr
    cases t with
    | nil => exact Nat.zero_le _
    | node c l n r => exact nomatch hRepr.1
  · intro pd hAppend
    obtain rfl := some.inj hAppend
    refine ⟨⟨by decide, ?_, ?_⟩, fun _ _ => trivial⟩
    · intro n hFound
      obtain rfl := some.inj (some.inj hFound)
      exact ⟨[], rfl⟩
    · exact fun hFound => nomatch some.inj hFound
  · intro st hStep
    obtain rfl := some.inj hStep
    have hIndex : 1 < 2 := by decide
    have hOffset : (1 : Int) - 0 < 2 := by decide
    exact ⟨⟨hIndex, 0, rfl, hOffset, [], [], rfl, rfl⟩,
      fun _ _ => trivial⟩

/- The count of an array with an item that was inserted -/
theorem insertion_is_not_counted :
    ¬ ∀ size ops st, 0 < size →
      Runs.Guarded step Admissible ⟨setup size, []⟩ ops →
      Runs.run step ⟨setup size, []⟩ ops = some st →
      Correct st := by
  intro hClaim
  have hCorrect := hClaim 2 [.insert 0 5] _ (by decide)
    ⟨Nat.zero_le _, fun _ _ => trivial⟩ rfl
  exact absurd hCorrect.count (by decide)

end Efl.Elementary.ListView
