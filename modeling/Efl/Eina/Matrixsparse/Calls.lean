import Efl.Eina.Matrixsparse.Resize
import Efl.Lib.Runs

/-
  Sequences of calls on a matrix.

  A table of data goes along with the matrix, and the results
  of the calls are compared with it.

  Main declarations:
    * `Matrixsparse.Table`
    * `Matrixsparse.Op`
    * `Matrixsparse.step_correct`
    * `Matrixsparse.calls_correct`
-/

---
-- Calls
---

namespace Efl.Eina.Matrixsparse

/- What a matrix stands for. -/
structure Table (D : Type) where
  rows : Nat
  cols : Nat
  data : Nat → Nat → Option D

inductive Op (R C D : Type) where
  | dataIdxSet
      (row col : Nat) (data : Option D) (alloc : Alloc R C)
  | dataIdxReplace
      (row col : Nat) (data : Option D) (alloc : Alloc R C)
  | cellIdxClear (row col : Nat)
  | cellClear (c : C)
  | rowIdxClear (row : Nat)
  | columnIdxClear (col : Nat)
  | sizeSet (rows cols : Nat)
  | dataIdxGet (row col : Nat)

section

variable {R C D : Type} [DecidableEq R] [DecidableEq C]

/- The call, with its result. -/
def Op.apply (op : Op R C D) (m : Matrixsparse R C D) : Option (Matrixsparse R C D × Bool) :=
  match op with
  | .dataIdxSet row col data alloc => m.dataIdxSet row col data alloc
  | .dataIdxReplace row col data alloc =>
    (m.dataIdxReplace row col data alloc).map
      fun r => (r.1, r.2.1)
  | .cellIdxClear row col => m.cellIdxClear row col
  | .cellClear c => (m.cellClear c).map fun m => (m, true)
  | .rowIdxClear row => m.rowIdxClear row
  | .columnIdxClear col => m.columnIdxClear col
  | .sizeSet rows cols => m.sizeSet rows cols
  | .dataIdxGet row col =>
    (m.dataIdxGet row col).map fun r => (r.1, true)

/- A cell at this place, when there is memory. -/
def Table.AllowsSet (t : Table D) (row col : Nat) (alloc : Alloc R C) (result : Bool) : Prop :=
  (result = true → row < t.rows ∧ col < t.cols) ∧
    (row < t.rows ∧ col < t.cols →
      alloc.row.isSome → alloc.cell.isSome → result = true)

/- The results that are right for the table. -/
def Op.Allows (op : Op R C D) (t : Table D) (result : Bool) : Prop :=
  match op with
  | .dataIdxSet row col _ alloc => t.AllowsSet row col alloc result
  | .dataIdxReplace row col _ alloc => t.AllowsSet row col alloc result
  | .cellIdxClear row col =>
    result = decide (row < t.rows ∧ col < t.cols)
  | .cellClear _ => result = true
  | .rowIdxClear row => result = decide (row < t.rows)
  | .columnIdxClear col => result = decide (col < t.cols)
  | .sizeSet rows cols => result = decide (0 < rows ∧ 0 < cols)
  | .dataIdxGet _ _ => True

instance (t : Table D) (row col : Nat) (alloc : Alloc R C) (result : Bool) :
    Decidable (t.AllowsSet row col alloc result) := by
  unfold Table.AllowsSet
  infer_instance

instance (op : Op R C D) (t : Table D) (result : Bool) : Decidable (op.Allows t result) :=
  match op with
  | .dataIdxSet row col _ alloc =>
    inferInstanceAs
      (Decidable (t.AllowsSet row col alloc result))
  | .dataIdxReplace row col _ alloc =>
    inferInstanceAs
      (Decidable (t.AllowsSet row col alloc result))
  | .cellIdxClear row col =>
    inferInstanceAs (Decidable
      (result = decide (row < t.rows ∧ col < t.cols)))
  | .cellClear _ => inferInstanceAs (Decidable (result = true))
  | .rowIdxClear row =>
    inferInstanceAs
      (Decidable (result = decide (row < t.rows)))
  | .columnIdxClear col =>
    inferInstanceAs
      (Decidable (result = decide (col < t.cols)))
  | .sizeSet rows cols =>
    inferInstanceAs
      (Decidable (result = decide (0 < rows ∧ 0 < cols)))
  | .dataIdxGet _ _ => inferInstanceAs (Decidable True)

/- The place of a cell. -/
def place (m : Matrixsparse R C D) (c : C) : Nat × Nat :=
  (m.rowOf (m.cells.node c).val.parent, m.colOf c)

/- The table after a call on `m` that has succeeded. -/
def Op.update (op : Op R C D) (m : Matrixsparse R C D) (t : Table D) : Table D :=
  match op with
  | .dataIdxSet row col data _ =>
    { t with data := setAt t.data row col data }
  | .dataIdxReplace row col data _ =>
    { t with data := setAt t.data row col data }
  | .cellIdxClear row col =>
    { t with data := setAt t.data row col none }
  | .cellClear c =>
    { t with
      data := setAt t.data (m.place c).1 (m.place c).2 none }
  | .rowIdxClear row => { t with data := clearRow t.data row }
  | .columnIdxClear col => { t with data := clearColumn t.data col }
  | .sizeSet rows cols => ⟨rows, cols, restrict t.data rows cols⟩
  | .dataIdxGet _ _ => t

/-
  A call on the matrix and its table.  A wrong result counts
  as a fault.
-/
def step (s : Matrixsparse R C D × Table D) (op : Op R C D) :
    Option (Matrixsparse R C D × Table D) := do
  let (m, result) ← op.apply s.1
  if op.Allows s.2 result then
    some (m, if result then op.update s.1 s.2 else s.2)
  else
    none

/-
  The memory pools return nodes that are not in use, and a
  cell that is passed is one of the matrix.
-/
def Op.Fresh (op : Op R C D) (m : Matrixsparse R C D) : Prop :=
  match op with
  | .dataIdxSet _ _ _ alloc => FreshAlloc m alloc
  | .dataIdxReplace _ _ _ alloc => FreshAlloc m alloc
  | .cellClear c => c ∈ m.cells.live
  | _ => True

/- Shrinking keeps the row that was used last. -/
def Op.Resizes (op : Op R C D) (m : Matrixsparse R C D) : Prop :=
  match op with
  | .sizeSet rows cols => m.Resizable rows cols
  | _ => True

/- A matrix that is well formed and holds the table. -/
def Holds (s : Matrixsparse R C D × Table D) : Prop :=
  (∃ rs cs, Represents s.1 rs cs s.2.data) ∧
    s.1.sizeRows = s.2.rows ∧ s.1.sizeCols = s.2.cols

end

---
-- Correctness
---

open Option
variable {R C D : Type} [DecidableEq R] [DecidableEq C]

variable {m : Matrixsparse R C D}

/- Setting stays inside of the matrix. -/
theorem dataIdxSet_outside {row col : Nat} (data : Option D) (alloc : Alloc R C)
    (hOut : ¬ (row < m.sizeRows ∧ col < m.sizeCols)) :
    m.dataIdxSet row col data alloc = some (m, false) := by
  unfold dataIdxSet
  rw [if_neg hOut]

theorem dataIdxReplace_outside {row col : Nat} (data : Option D) (alloc : Alloc R C)
    (hOut : ¬ (row < m.sizeRows ∧ col < m.sizeCols)) :
    m.dataIdxReplace row col data alloc = some (m, false, none) := by
  unfold dataIdxReplace
  rw [if_neg hOut]

/- A step, from what the call does to the matrix. -/
theorem step_of_apply {t : Table D} (op : Op R C D) (m' : Matrixsparse R C D) (result : Bool)
    (hApply : op.apply m = some (m', result)) (hAllows : op.Allows t result)
    (hHolds : Holds (m', if result then op.update m t else t)) :
    ∃ s', step (m, t) op = some s' ∧ Holds s' := by
  unfold step
  simp only [hApply, bind_eq_bind, bind_some, if_pos hAllows]
  exact ⟨_, rfl, hHolds⟩

/- Each call keeps the matrix well formed. -/
theorem step_correct {s : Matrixsparse R C D × Table D} (op : Op R C D)
    (hHolds : Holds s) (hFresh : op.Fresh s.1) (hOk : op.Resizes s.1) :
    ∃ s', step s op = some s' ∧ Holds s' := by
  rcases s with ⟨m, t⟩
  have hSame := hHolds
  rcases hHolds with ⟨⟨rs, cs, hRep⟩, hRows, hCols⟩
  dsimp only at hRep hRows hCols hFresh hOk
  cases op with
  | dataIdxSet row col data alloc =>
    rcases dataIdxSet_spec row col data hRep hFresh with ⟨m', rs', cs',
      result, hRun, hRep', hResult, hRows', hCols'⟩
    rw [hRows] at hRows' hResult
    rw [hCols] at hCols' hResult
    refine step_of_apply _ _ _ hRun ⟨?_, hResult⟩ ?_
    · rintro rfl
      by_contra hOut
      rw [← hRows, ← hCols] at hOut
      rw [dataIdxSet_outside data alloc hOut] at hRun
      simp at hRun
    · cases result <;> exact ⟨⟨rs', cs', hRep'⟩, hRows', hCols'⟩
  | dataIdxReplace row col data alloc =>
    rcases dataIdxReplace_spec row col data hRep hFresh with ⟨m', rs',
      cs', result, old, hRun, hRep', hResult, -, hRows', hCols'⟩
    rw [hRows] at hRows' hResult
    rw [hCols] at hCols' hResult
    refine step_of_apply _ m' result (by simp [Op.apply, hRun]) ⟨?_, hResult⟩ ?_
    · rintro rfl
      by_contra hOut
      rw [← hRows, ← hCols] at hOut
      rw [dataIdxReplace_outside data alloc hOut] at hRun
      simp at hRun
    · cases result <;> exact ⟨⟨rs', cs', hRep'⟩, hRows', hCols'⟩
  | cellIdxClear row col =>
    by_cases hIn : row < m.sizeRows ∧ col < m.sizeCols
    · rcases cellIdxClear_spec row col hRep with ⟨m', cs', hRun, hRep', hRows', hCols'⟩
      rw [decide_eq_true hIn] at hRun
      rw [hRows, hCols] at hIn
      exact step_of_apply _ _ _ hRun (decide_eq_true hIn).symm
        ⟨⟨rs, cs', hRep'⟩, hRows'.trans hRows, hCols'.trans hCols⟩
    · have hRun : m.cellIdxClear row col = some (m, false) := by
        unfold cellIdxClear
        rw [if_neg hIn]
      rw [hRows, hCols] at hIn
      exact step_of_apply _ _ _ hRun (decide_eq_false hIn).symm hSame
  | cellClear c =>
    rcases hRep.shape.cells_live c hFresh with ⟨r, hr, hc⟩
    have hParent := hRep.shape.parent r hr c hc
    rcases List.append_of_mem hc with ⟨as, bs, hSplit⟩
    rcases cellClear_spec hRep hr hSplit with ⟨m₁, m', hUnlink, hFree, hRep', -, hRows', hCols'⟩
    have hRun : m.cellClear c = some m' := by
      unfold cellClear
      simp only [hUnlink, hFree, bind_eq_bind, bind_some]
    have hData : Represents m' rs (Function.update cs r (as ++ bs))
        (setAt t.data (m.place c).1 (m.place c).2 none) := by
      unfold place
      rw [hParent]
      exact hRep'
    exact step_of_apply _ m' true (by simp [Op.apply, hRun]) rfl
      ⟨⟨rs, _, hData⟩, hRows'.trans hRows, hCols'.trans hCols⟩
  | rowIdxClear row =>
    by_cases hIn : row < m.sizeRows
    · rcases rowIdxClear_spec row hRep with ⟨m', rs', cs', hRun, hRep', hRows', hCols'⟩
      rw [decide_eq_true hIn] at hRun
      rw [hRows] at hIn
      exact step_of_apply _ _ _ hRun (decide_eq_true hIn).symm
        ⟨⟨rs', cs', hRep'⟩, hRows'.trans hRows, hCols'.trans hCols⟩
    · have hRun : m.rowIdxClear row = some (m, false) := by
        unfold rowIdxClear
        rw [if_neg hIn]
      rw [hRows] at hIn
      exact step_of_apply _ _ _ hRun (decide_eq_false hIn).symm hSame
  | columnIdxClear col =>
    by_cases hIn : col < m.sizeCols
    · rcases columnIdxClear_spec col hRep with ⟨m', rs', cs', hRun, hRep', hRows', hCols'⟩
      rw [decide_eq_true hIn] at hRun
      rw [hCols] at hIn
      exact step_of_apply _ _ _ hRun (decide_eq_true hIn).symm
        ⟨⟨rs', cs', hRep'⟩, hRows'.trans hRows, hCols'.trans hCols⟩
    · have hRun : m.columnIdxClear col = some (m, false) := by
        unfold columnIdxClear
        rw [if_neg hIn]
      rw [hCols] at hIn
      exact step_of_apply _ _ _ hRun (decide_eq_false hIn).symm hSame
  | sizeSet rows cols =>
    rcases sizeSet_spec rows cols hRep hOk with ⟨m', rs', cs', hRun, hRep', hRows', hCols'⟩
    refine step_of_apply _ _ _ hRun rfl ?_
    by_cases hSize : 0 < rows ∧ 0 < cols
    · rw [if_pos hSize] at hRep' hRows' hCols'
      rw [decide_eq_true hSize]
      exact ⟨⟨rs', cs', hRep'⟩, hRows', hCols'⟩
    · rw [if_neg hSize] at hRep' hRows' hCols'
      rw [decide_eq_false hSize]
      exact ⟨⟨rs', cs', hRep'⟩, hRows'.trans hRows, hCols'.trans hCols⟩
  | dataIdxGet row col =>
    rcases dataIdxGet_spec row col hRep.shape hRep.stores with ⟨m', hRun, hShape', hSame'⟩
    exact step_of_apply _ m' true (by simp [Op.apply, hRun]) trivial
      ⟨⟨rs, cs, hRep.congr hShape' hSame'⟩, hSame'.sizeRows.trans hRows,
      hSame'.sizeCols.trans hCols⟩

omit [DecidableEq R] [DecidableEq C] in
/- A new matrix holds nothing. -/
theorem new_holds {rows cols : Nat} {row : R → Node R (Ends C)} {cell : C → Node C (Cell R D)}
    (hNew : new rows cols row cell = some m) : Holds (m, ⟨rows, cols, fun _ _ => none⟩) := by
  unfold new at hNew
  split at hNew
  · obtain rfl := some.inj hNew
    refine ⟨⟨[], fun _ => [], ?_⟩, rfl, rfl⟩
    refine ⟨⟨⟨DList.linked_nil, by simp, by simp, rfl, rfl,
      by simp⟩, by simp, by simp, by simp, by simp⟩, ⟨by simp, by simp⟩, ⟨by simp, by simp⟩⟩
  · simp at hNew

/-
  A matrix stays well formed under every sequence of calls,
  each of which finds fresh nodes and resizes only where the
  row that was used last is kept; a lookup then finds the data
  of the table.
-/
theorem calls_correct {rows cols : Nat} {row : R → Node R (Ends C)}
    {cell : C → Node C (Cell R D)} {m : Matrixsparse R C D}
    (ops : List (Op R C D)) (hNew : new rows cols row cell = some m)
    (hGuarded : Runs.Guarded step (fun s op => op.Fresh s.1 ∧
    op.Resizes s.1) (m, ⟨rows, cols, fun _ _ => none⟩) ops) :
    ∃ m' t' rs cs,
      Runs.run step (m, ⟨rows, cols, fun _ _ => none⟩) ops =
        some (m', t') ∧
      Shape m' rs cs ∧
      m'.sizeRows = t'.rows ∧ m'.sizeCols = t'.cols ∧
      ∀ i j, ∃ m'', m'.dataIdxGet i j =
        some (m'', t'.data i j) := by
  rcases Runs.run_of_guarded Holds (fun s op hHolds hOk =>
      step_correct op hHolds hOk.1 hOk.2) (new_holds hNew) hGuarded with
    ⟨⟨m', t'⟩, hRun, ⟨rs, cs, hRep⟩, hRows, hCols⟩
  refine ⟨m', t', rs, cs, hRun, hRep.shape, hRows, hCols, ?_⟩
  intro i j
  rcases dataIdxGet_spec i j hRep.shape hRep.stores with
    ⟨m'', hGet, -, -⟩
  exact ⟨m'', hGet⟩

---
-- Samples
---

/- A new matrix of 10 rows and 10 columns, and its table. -/
def sampleMatrix : Matrixsparse Nat Nat Nat where
  ends := ⟨none, none, none⟩
  rows := ⟨∅, fun _ => ⟨none, none, 0, none, none, none⟩⟩
  cells := ⟨∅, fun _ => ⟨none, none, 0, none, 0⟩⟩
  sizeRows := 10
  sizeCols := 10

def sampleTable : Table Nat :=
  ⟨10, 10, fun _ _ => none⟩

/- A cell at `(0, 0)`, and then at `(1, 5)`. -/
def sampleSet : Op Nat Nat Nat :=
  .dataIdxSet 0 0 (some 7) ⟨some 0, some 0⟩

def sampleSetNext : Op Nat Nat Nat :=
  .dataIdxSet 1 5 (some 8) ⟨some 1, some 1⟩

/- The condition holds when the first cell is resized to. -/
theorem calls_correct_sample :
    ∃ m' t' rs cs,
      Runs.run step (sampleMatrix, sampleTable)
        [sampleSet, .sizeSet 5 3] = some (m', t') ∧
      Shape m' rs cs ∧
      m'.sizeRows = t'.rows ∧ m'.sizeCols = t'.cols ∧
      ∀ i j, ∃ m'', m'.dataIdxGet i j =
        some (m'', t'.data i j) := by
  refine calls_correct (m := sampleMatrix) _ rfl
    ⟨⟨⟨?_, ?_⟩, trivial⟩, ?_⟩
  · intro r _
    exact Finset.notMem_empty r
  · intro c _
    exact Finset.notMem_empty c
  · intro s hStep
    obtain rfl : (step (sampleMatrix, sampleTable)
        sampleSet).get (by decide) = s :=
      get_of_eq_some _ hStep
    refine ⟨⟨trivial, ?_⟩, fun _ _ => trivial⟩
    intro _ _ u hUsed _
    obtain rfl : 0 = u := some.inj hUsed
    exact Or.inl ⟨0, rfl, by decide⟩

/- Both cells are allocated at free addresses. -/
theorem sample_fresh {ops : List (Op Nat Nat Nat)}
    (hRest : ∀ s, Runs.Guarded step (fun s op => op.Fresh s.1) s ops) :
    Runs.Guarded step (fun s op => op.Fresh s.1) (sampleMatrix, sampleTable)
      (sampleSet :: sampleSetNext :: ops) := by
  refine ⟨⟨?_, ?_⟩, ?_⟩
  · intro r _
    exact Finset.notMem_empty r
  · intro c _
    exact Finset.notMem_empty c
  · intro s hStep
    obtain rfl : (step (sampleMatrix, sampleTable)
        sampleSet).get (by decide) = s := get_of_eq_some _ hStep
    refine ⟨⟨?_, ?_⟩, fun s _ => hRest s⟩
    · rintro r hRow
      obtain rfl : 1 = r := some.inj hRow
      decide
    · rintro c hCell
      obtain rfl : 1 = c := some.inj hCell
      decide

/-
  Here the row of the second cell, which was used last, is
  freed, and then read through `last_used`.
-/
theorem sizeSet_dangling :
    Runs.Guarded step (fun s op => op.Fresh s.1) (sampleMatrix,
        sampleTable) [sampleSet, sampleSetNext, .sizeSet 10 3] ∧
        (Runs.run step (sampleMatrix, sampleTable) [sampleSet,
        sampleSetNext]).isSome ∧
        Runs.run step (sampleMatrix, sampleTable)
        [sampleSet, sampleSetNext, .sizeSet 10 3] = none := by
  refine ⟨sample_fresh fun _ => ⟨trivial, fun _ _ => trivial⟩,
    by decide, ?_⟩
  rw [← isNone_iff_eq_none]
  decide

end Efl.Eina.Matrixsparse
