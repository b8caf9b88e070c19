import Efl.Eina.Matrixsparse.Represent

/-
  The calls that set and clear cells.

  Main declarations:
    * `Matrixsparse.FreshAlloc`
    * `Matrixsparse.dataIdxSet_spec`
    * `Matrixsparse.dataIdxReplace_spec`
-/

---
-- Setting
---

namespace Efl.Eina.Matrixsparse

open Option

variable {R C D : Type} [DecidableEq R] [DecidableEq C]

/- The memory pools return nodes that are not in use. -/
structure FreshAlloc (m : Matrixsparse R C D) (alloc : Alloc R C) : Prop where
  row : ∀ r, alloc.row = some r → r ∉ m.rows.live
  cell : ∀ c, alloc.cell = some c → c ∉ m.cells.live

variable {m m' : Matrixsparse R C D} {rs : List R} {cs : R → List C}
  {f : Nat → Nat → Option D}

omit [DecidableEq R] [DecidableEq C] in
theorem Represents.congr (hRep : Represents m rs cs f)
    (hShape : Shape m' rs cs) (hSame : SameNodes m m') : Represents m' rs cs f :=
  ⟨hShape, hRep.stores.congr hSame, hRep.bounded.congr hSame⟩

omit [DecidableEq R] in
/- `cell->data = data` -/
theorem cellSet_spec {r : R} {c : C} (data : Option D)
    (hRep : Represents m rs cs f) (hMem : r ∈ rs) (hCell : c ∈ cs r) :
    ∃ m', m.cellSet c data = some m' ∧
      Represents m' rs cs (setAt f (m.rowOf r) (m.colOf c) data) ∧
      m'.sizeRows = m.sizeRows ∧ m'.sizeCols = m.sizeCols := by
  rcases hRep with ⟨hShape, hStores, hBounded⟩
  have hLive := (hShape.cells r hMem).live c hCell
  unfold cellSet
  simp only [Heap.modify_of_mem _ hLive, bind_eq_bind, bind_some]
  have hNode : ∀ c', let x := (m.cells.set c
        { m.cells.node c with val := { (m.cells.node c).val with data := data } }).node c'
      x.next = (m.cells.node c').next ∧ x.prev = (m.cells.node c').prev ∧
        x.idx = (m.cells.node c').idx ∧ x.val.parent = (m.cells.node c').val.parent := by
    intro c'
    by_cases hSame : c' = c
    · subst hSame
      simp
    · simp [hSame]
  refine ⟨_, rfl, ⟨⟨hShape.rows, hShape.rows_live, ?_, ?_,
    hShape.cells_live⟩, ⟨?_, ?_⟩, ⟨hBounded.row_lt, ?_⟩⟩, rfl, rfl⟩
  · intro r' hr'
    exact (hShape.cells r' hr').congr (fun c' _ => ⟨(hNode c').1,
      (hNode c').2.1, (hNode c').2.2.1⟩) (hShape.cells r' hr').live
  · intro r' hr' c' hc'
    dsimp only
    rw [(hNode c').2.2.2]
    exact hShape.parent r' hr' c' hc'
  · intro r' hr' c' hc'
    unfold colOf rowOf
    dsimp only
    rw [(hNode c').2.2.1]
    by_cases hSame : c' = c
    · subst hSame
      have hEq := hShape.row_unique hr' hc' hMem hCell
      subst hEq
      simp [setAt]
    · unfold setAt
      rw [if_neg]
      · rw [Heap.node_set, Function.update_of_ne hSame]
        exact hStores.stored r' hr' c' hc'
      · rintro ⟨hRow, hCol⟩
        have hEq := hShape.rows.eq_of_idx hr' hMem hRow
        subst hEq
        exact hSame ((hShape.cells r' hr').eq_of_idx hc' hCell hCol)
  · intro i j hSome
    by_cases hHere : i = m.rowOf r ∧ j = m.colOf c
    · refine ⟨r, hMem, hHere.1.symm, c, hCell, ?_⟩
      exact (hNode c).2.2.1.trans hHere.2.symm
    · unfold setAt at hSome
      rw [if_neg hHere] at hSome
      rcases hStores.absent i j hSome with ⟨r', hr', hi, c', hc', hj⟩
      exact ⟨r', hr', hi, c', hc', (hNode c').2.2.1.trans hj⟩
  · intro r' hr' c' hc'
    exact (hNode c').2.2.1.trans_lt (hBounded.col_lt r' hr' c' hc')

/- The data after a call with this result. -/
def setIf (result : Bool) (f : Nat → Nat → Option D)
    (row col : Nat) (data : Option D) : Nat → Nat → Option D :=
  if result then setAt f row col data else f

omit [DecidableEq R] [DecidableEq C] in
/- A row without cells has no data. -/
theorem clearRow_of_empty {r : R} (hRep : Represents m rs cs f)
    (hMem : r ∈ rs) (hEmpty : cs r = []) : clearRow f (m.rowOf r) = f := by
  funext i j
  unfold clearRow
  split
  · rename_i hi
    by_contra hData
    rcases hRep.stores.absent i j (fun h => hData h.symm) with ⟨r', hr', hRow, c, hc, -⟩
    have hEq := hRep.shape.rows.eq_of_idx hr' hMem (hRow.trans hi)
    subst hEq
    simp [hEmpty] at hc
  · rfl

variable {col : Nat}

/- Adding to a row. -/
theorem addToRow_spec {r : R} {alloc : Option C} (data : Option D)
    (hRep : Represents m rs cs f) (hMem : r ∈ rs) (hNew : ∀ c ∈ cs r, m.colOf c ≠ col)
    (hFresh : ∀ c, alloc = some c → c ∉ m.cells.live)
    (hCol : col < m.sizeCols) :
    ∃ m' rs' cs' result,
      m.addToRow r col data alloc = some (m', result) ∧
      Represents m' rs' cs' (setIf result f (m.rowOf r) col data) ∧
      (alloc.isSome → result = true) ∧ m'.sizeRows = m.sizeRows ∧ m'.sizeCols = m.sizeCols := by
  unfold addToRow
  cases alloc with
  | some c =>
    rcases rowCellIdxAdd_spec data hRep hMem hNew
      (hFresh c rfl) hCol with ⟨m', l, hAdd, hRep', hSizes⟩
    simp only [hAdd, bind_eq_bind, bind_some]
    exact ⟨m', rs, _, true, rfl, hRep', fun _ => rfl, hSizes⟩
  | none =>
    have hLive := hRep.shape.rows.live r hMem
    have hFirst := (hRep.shape.cells r hMem).first_eq
    simp only [rowCellIdxAdd, Heap.read_of_mem hLive, bind_eq_bind, bind_some, hFirst]
    rcases hList : cs r with - | ⟨c, l⟩
    · rcases List.append_of_mem hMem with ⟨as, bs, rfl⟩
      rcases rowRemove_spec hRep with ⟨m₁, m₂, hUnlink, hFree, hRep', -, hSizes⟩
      simp only [List.head?_nil, hUnlink, hFree, bind_some]
      rw [clearRow_of_empty hRep hMem hList] at hRep'
      exact ⟨m₂, as ++ bs, cs, false, rfl, hRep', by simp, hSizes⟩
    · exact ⟨m, rs, cs, false, rfl, hRep, by simp, rfl,
        rfl⟩

variable {row : Nat}

omit [DecidableEq C] in
/- The row that is added to. -/
theorem rowGetOrAdd_spec {alloc : Option R} (hRep : Represents m rs cs f)
    (hFresh : ∀ r, alloc = some r → r ∉ m.rows.live)
    (hRow : row < m.sizeRows) :
    ∃ m' found rs' cs',
      m.rowGetOrAdd row alloc = some (m', found) ∧
      Represents m' rs' cs' f ∧
      (found = none → alloc = none) ∧
      (∀ r, found = some r → r ∈ rs' ∧ m'.rowOf r = row ∧ ∀ c ∈ cs' r,
        ∃ r' ∈ rs, m.rowOf r' = row ∧ c ∈ cs r') ∧
      m'.cells = m.cells ∧ m'.sizeRows = m.sizeRows ∧ m'.sizeCols = m.sizeCols := by
  rcases idxGet_spec row hRep.shape.rows with ⟨e, found, hGet, hRows, hSome, hNone⟩
  have hShape : Shape { m with ends := e } rs cs :=
    ⟨hRows, hRep.shape.rows_live, hRep.shape.cells, hRep.shape.parent, hRep.shape.cells_live⟩
  have hRep₁ : Represents { m with ends := e } rs cs f :=
    hRep.congr hShape ⟨rfl, fun _ => rfl, rfl, rfl⟩
  unfold rowGetOrAdd rowIdxGet
  simp only [hGet, bind_eq_bind, bind_some]
  cases found with
  | some r =>
    rcases hSome r rfl with ⟨hMem, hIdx⟩
    refine ⟨_, some r, rs, cs, rfl, hRep₁, by simp, ?_, rfl,
      rfl, rfl⟩
    rintro r' ⟨⟩
    exact ⟨hMem, hIdx, fun c hc => ⟨r, hMem, hIdx, hc⟩⟩
  | none =>
    cases alloc with
    | none =>
      exact ⟨_, none, rs, cs, rfl, hRep₁, fun _ => rfl, by simp, rfl, rfl, rfl⟩
    | some r =>
      rcases rowIdxAdd_spec hRep₁ (hNone rfl) (hFresh r rfl) hRow with
        ⟨m', rs', hAdd, hRep', hMem, hIdx, hCells, hSizes⟩
      refine ⟨m', some r, rs', _, hAdd, hRep', by simp, ?_, hCells, hSizes⟩
      rintro r' ⟨⟩
      exact ⟨hMem, hIdx, by simp⟩

variable {alloc : Alloc R C}

/- `_eina_matrixsparse_cell_idx_add` -/
theorem cellIdxAdd_spec (data : Option D) (hRep : Represents m rs cs f)
    (hNew : ∀ r ∈ rs, m.rowOf r = row → ∀ c ∈ cs r, m.colOf c ≠ col)
    (hFresh : FreshAlloc m alloc) (hRow : row < m.sizeRows)
    (hCol : col < m.sizeCols) :
    ∃ m' rs' cs' result,
      m.cellIdxAdd row col data alloc = some (m', result) ∧
      Represents m' rs' cs' (setIf result f row col data) ∧
      (alloc.row.isSome → alloc.cell.isSome → result = true) ∧
      m'.sizeRows = m.sizeRows ∧ m'.sizeCols = m.sizeCols := by
  rcases rowGetOrAdd_spec hRep hFresh.row hRow with ⟨m₁, found, rs₁,
    cs₁, hGet, hRep₁, hNone, hSome, hCells, hSizeRows, hSizeCols⟩
  unfold cellIdxAdd
  simp only [hGet, bind_eq_bind, bind_some]
  cases found with
  | none =>
    exact ⟨m₁, rs₁, cs₁, false, rfl, hRep₁, by simp [hNone rfl], hSizeRows, hSizeCols⟩
  | some r =>
    rcases hSome r rfl with ⟨hMem, hIdx, hOld⟩
    rcases addToRow_spec data hRep₁ hMem (by
          intro c hc
          rcases hOld c hc with ⟨r', hr', hRow', hc'⟩
          unfold colOf
          rw [hCells]
          exact hNew r' hr' hRow' c hc') (by rw [hCells]; exact hFresh.cell)
        (by rw [hSizeCols]; exact hCol) with
      ⟨m₂, rs₂, cs₂, result, hAdd, hRep₂, hResult, hRows₂, hCols₂⟩
    rw [hIdx] at hRep₂
    exact ⟨m₂, rs₂, cs₂, result, hAdd, hRep₂, fun _ h => hResult h,
      hRows₂.trans hSizeRows, hCols₂.trans hSizeCols⟩

omit [DecidableEq R] [DecidableEq C] in
/- The nodes in use are those of the rows. -/
theorem FreshAlloc.congr (hFresh : FreshAlloc m alloc)
    (hShape : Shape m rs cs) (hShape' : Shape m' rs cs) : FreshAlloc m' alloc := by
  refine ⟨?_, ?_⟩
  · intro r hr hLive
    exact hFresh.row r hr (hShape.rows.live r (hShape'.rows_live r hLive))
  · intro c hc hLive
    rcases hShape'.cells_live c hLive with ⟨r, hr, hMem⟩
    exact hFresh.cell c hc ((hShape.cells r hr).live c hMem)

omit [DecidableEq R] [DecidableEq C] in
/- A place without a cell has no data. -/
theorem Stores.eq_none (hStores : Stores m rs cs f)
    (hNone : ∀ r ∈ rs, m.rowOf r = row → ∀ c ∈ cs r, m.colOf c ≠ col) : f row col = none := by
  by_contra hData
  rcases hStores.absent row col hData with ⟨r, hr, hRow, c, hc, hCol⟩
  exact hNone r hr hRow c hc hCol

/- `eina_matrixsparse_data_idx_replace` -/
theorem dataIdxReplace_spec (row col : Nat) (data : Option D)
    (hRep : Represents m rs cs f) (hFresh : FreshAlloc m alloc) :
    ∃ m' rs' cs' result old,
      m.dataIdxReplace row col data alloc =
        some (m', result, old) ∧
      Represents m' rs' cs' (setIf result f row col data) ∧
      (row < m.sizeRows ∧ col < m.sizeCols → alloc.row.isSome →
        alloc.cell.isSome → result = true) ∧
      (result = true → old = f row col) ∧ m'.sizeRows = m.sizeRows ∧ m'.sizeCols = m.sizeCols := by
  unfold dataIdxReplace
  split
  swap
  · rename_i hOut
    exact ⟨m, rs, cs, false, none, rfl, hRep, fun h => (hOut h).elim, by simp, rfl, rfl⟩
  rename_i hIn
  rcases cellIdxGet_spec row col hRep.shape with ⟨m₁, found, hGet, hShape₁, hSame₁, hSome, hNone⟩
  have hRep₁ := hRep.congr hShape₁ hSame₁
  simp only [hGet, bind_eq_bind, bind_some]
  cases found with
  | some c =>
    rcases hSome c rfl with ⟨r, hr, hRow, hc, hCol⟩
    have hLive := (hShape₁.cells r hr).live c hc
    rcases cellSet_spec data hRep₁ hr hc with ⟨m₂, hSet, hRep₂, hRows₂, hCols₂⟩
    rw [hSame₁.row, hSame₁.col, hRow, hCol] at hRep₂
    simp only [Heap.read_of_mem hLive, hSet, bind_some]
    refine ⟨m₂, rs, cs, true, _, rfl, hRep₂, fun _ _ _ => rfl, ?_,
      hRows₂.trans hSame₁.sizeRows, hCols₂.trans hSame₁.sizeCols⟩
    intro _
    rw [hSame₁.cells, ← hRep.stores.stored r hr c hc, hRow, hCol]
  | none =>
    have hNone₁ : ∀ r ∈ rs, m₁.rowOf r = row → ∀ c ∈ cs r, m₁.colOf c ≠ col := by
      intro r hr hRow c hc
      rw [hSame₁.row] at hRow
      rw [hSame₁.col]
      exact hNone rfl r hr hRow c hc
    rcases cellIdxAdd_spec data hRep₁ hNone₁ (hFresh.congr hRep.shape hShape₁)
        (by rw [hSame₁.sizeRows]; exact hIn.1) (by rw [hSame₁.sizeCols]; exact hIn.2) with
      ⟨m₂, rs₂, cs₂, result, hAdd, hRep₂, hResult, hRows₂, hCols₂⟩
    simp only [hAdd, bind_some]
    exact ⟨m₂, rs₂, cs₂, result, none, rfl, hRep₂, fun _ => hResult,
      fun _ => (hRep.stores.eq_none (hNone rfl)).symm,
      hRows₂.trans hSame₁.sizeRows, hCols₂.trans hSame₁.sizeCols⟩

/- `eina_matrixsparse_data_idx_set` -/
/- The old data is all that the two calls differ in. -/
theorem dataIdxSet_of_replace {row col : Nat} {data old : Option D} {result : Bool}
    (hReplace : m.dataIdxReplace row col data alloc = some (m', result, old)) :
    m.dataIdxSet row col data alloc = some (m', result) := by
  unfold dataIdxReplace at hReplace
  unfold dataIdxSet
  split at hReplace
  · rename_i hIn
    simp only [bind_eq_bind, bind_eq_some_iff] at hReplace
    rcases hReplace with ⟨⟨m₁, found⟩, hGet, hReplace⟩
    rw [if_pos hIn, hGet]
    cases found
    all_goals simp only [bind_eq_some_iff, some.injEq, Prod.mk.injEq] at hReplace
    · rcases hReplace with ⟨_, hAdd, rfl, rfl, -⟩
      exact hAdd
    · rcases hReplace with ⟨_, -, _, hSet, rfl, rfl, -⟩
      simp [hSet]
  · simp_all

theorem dataIdxSet_spec (row col : Nat) (data : Option D)
    (hRep : Represents m rs cs f) (hFresh : FreshAlloc m alloc) :
    ∃ m' rs' cs' result,
      m.dataIdxSet row col data alloc = some (m', result) ∧
      Represents m' rs' cs' (setIf result f row col data) ∧
      (row < m.sizeRows ∧ col < m.sizeCols → alloc.row.isSome →
        alloc.cell.isSome → result = true) ∧
      m'.sizeRows = m.sizeRows ∧ m'.sizeCols = m.sizeCols := by
  rcases dataIdxReplace_spec row col data hRep hFresh with
    ⟨m', rs', cs', result, old, hReplace, hRep', hResult, -, hSizes⟩
  exact ⟨m', rs', cs', result, dataIdxSet_of_replace hReplace, hRep', hResult, hSizes⟩

---
-- Clearing
---

open List

omit [DecidableEq R] [DecidableEq C] in
/- No data is outside of the matrix. -/
theorem Represents.inside (hRep : Represents m rs cs f)
    (hData : f row col ≠ none) : row < m.sizeRows ∧ col < m.sizeCols := by
  rcases hRep.stores.absent row col hData with ⟨r, hr, hRow, c, hc, hCol⟩
  rw [← hRow, ← hCol]
  exact ⟨hRep.bounded.row_lt r hr, hRep.bounded.col_lt r hr c hc⟩

omit [DecidableEq R] [DecidableEq C] in
/- A row that is not in the list has no data. -/
theorem Represents.clearRow_eq (hRep : Represents m rs cs f)
    (hNone : ∀ r ∈ rs, m.rowOf r ≠ row) : clearRow f row = f := by
  funext i j
  unfold clearRow
  split
  · rename_i hi
    by_contra hData
    rcases hRep.stores.absent i j (fun h => hData h.symm) with ⟨r, hr, hRow, -⟩
    exact hNone r hr (hRow.trans hi)
  · rfl

/- `eina_matrixsparse_row_idx_clear` -/
theorem rowIdxClear_spec (row : Nat) (hRep : Represents m rs cs f) :
    ∃ m' rs' cs', m.rowIdxClear row =
        some (m', decide (row < m.sizeRows)) ∧
      Represents m' rs' cs' (clearRow f row) ∧
      m'.sizeRows = m.sizeRows ∧ m'.sizeCols = m.sizeCols := by
  unfold rowIdxClear
  split
  swap
  · rename_i hOut
    rw [decide_eq_false hOut, hRep.clearRow_eq]
    · exact ⟨m, rs, cs, rfl, hRep, rfl, rfl⟩
    · rintro r hr rfl
      exact hOut (hRep.bounded.row_lt r hr)
  rename_i hIn
  rw [decide_eq_true hIn]
  rcases rowIdxGet_spec row hRep.shape with ⟨m₁, found, hGet, hShape₁, hSame₁, hSome, hNone⟩
  have hRep₁ := hRep.congr hShape₁ hSame₁
  simp only [hGet, bind_eq_bind, bind_some]
  cases found with
  | none =>
    rw [hRep.clearRow_eq (hNone rfl)]
    exact ⟨m₁, rs, cs, rfl, hRep₁, hSame₁.sizeRows, hSame₁.sizeCols⟩
  | some r =>
    rcases hSome r rfl with ⟨hMem, hIdx⟩
    rcases append_of_mem hMem with ⟨as, bs, rfl⟩
    rcases rowRemove_spec hRep₁ with ⟨m₂, m₃, hUnlink, hFree, hRep₃, -, hRows₃, hCols₃⟩
    rw [hSame₁.row, hIdx] at hRep₃
    simp only [hUnlink, hFree, bind_some]
    exact ⟨m₃, as ++ bs, cs, rfl, hRep₃, hRows₃.trans hSame₁.sizeRows, hCols₃.trans hSame₁.sizeCols⟩

/- A list with the same first and last node. -/
theorem eq_singleton {N : Type} {ns : List N} {n : N}
    (hNodup : ns.Nodup) (hFirst : ns.head? = some n) (hLast : ns.getLast? = some n) : ns = [n] := by
  cases ns with
  | nil => simp at hFirst
  | cons a ns =>
    obtain rfl : a = n := by simpa using hFirst
    cases ns with
    | nil => rfl
    | cons b ns =>
      rw [getLast?_cons_cons] at hLast
      have hMem := mem_of_getLast? hLast
      exact ((nodup_cons.mp hNodup).1 hMem).elim

omit [DecidableEq R] [DecidableEq C] in
/- Clearing a row with one cell clears this cell. -/
theorem Represents.clearRow_singleton {r : R} {c : C}
    (hRep : Represents m rs cs f) (hMem : r ∈ rs) (hOne : cs r = [c]) :
    clearRow f (m.rowOf r) = setAt f (m.rowOf r) (m.colOf c) none := by
  funext i j
  unfold clearRow setAt
  by_cases hi : i = m.rowOf r
  · subst hi
    by_cases hj : j = m.colOf c
    · simp [hj]
    · simp only [if_pos, hj, and_false, if_false]
      by_contra hData
      rcases hRep.stores.absent _ j (fun h => hData h.symm) with ⟨r', hr', hRow, c', hc', hCol⟩
      have hEq := hRep.shape.rows.eq_of_idx hr' hMem hRow
      subst hEq
      rw [hOne, mem_singleton] at hc'
      subst hc'
      exact hj hCol.symm
  · simp [hi]

omit [DecidableEq R] [DecidableEq C] in
/- A place where nothing is. -/
theorem setAt_none_eq (hNone : f row col = none) : setAt f row col none = f := by
  funext i j
  unfold setAt
  split
  · rename_i h
    rw [h.1, h.2, hNone]
  · rfl

variable {as bs : List R}

/- The body of the loop of `column_idx_clear`. -/
theorem rowColumnClear_spec {r : R} (col : Nat)
    (hRep : Represents m (as ++ r :: bs) cs f) :
    ∃ m' as' cs', m.rowColumnClear r col = some m' ∧
      Represents m' (as' ++ bs) cs' (setAt f (m.rowOf r) col none) ∧
      (∀ r' ∈ bs, m'.rowOf r' = m.rowOf r') ∧ m'.sizeRows = m.sizeRows ∧
      m'.sizeCols = m.sizeCols := by
  have hMem : r ∈ as ++ r :: bs := by simp
  rcases rowCellIdxGet_spec col hRep.shape hMem with
    ⟨m₁, found, hGet, hShape₁, hSame₁, -, hSome, hNone⟩
  have hRep₁ := hRep.congr hShape₁ hSame₁
  have hLive := hShape₁.rows.live r hMem
  have hCells := hShape₁.cells r hMem
  unfold rowColumnClear
  simp only [hGet, bind_eq_bind, bind_some]
  cases found with
  | none =>
    refine ⟨m₁, as ++ [r], cs, rfl, ?_, fun r' _ =>
      hSame₁.row r', hSame₁.sizeRows, hSame₁.sizeCols⟩
    rw [setAt_none_eq, append_assoc]
    · exact hRep₁
    · apply hRep.stores.eq_none
      intro r' hr' hRow c hc
      have hEq := hRep.shape.rows.eq_of_idx hr' hMem hRow
      subst hEq
      exact hNone rfl c hc
  | some c =>
    rcases hSome c rfl with ⟨hc, hCol⟩
    simp only [Heap.read_of_mem hLive, bind_some]
    split
    · rcases append_of_mem hc with ⟨ps, qs, hSplit⟩
      rcases cellClear_spec hRep₁ hMem hSplit with
        ⟨m₂, m₃, hUnlink, hFree, hRep₃, hRow₃, hRows₃, hCols₃⟩
      rw [hSame₁.row, hSame₁.col, hCol] at hRep₃
      simp only [hUnlink, hFree, bind_some]
      exact ⟨m₃, as ++ [r], _, rfl, by simpa using hRep₃, fun r' _ =>
        (hRow₃ r').trans (hSame₁.row r'), hRows₃.trans hSame₁.sizeRows,
        hCols₃.trans hSame₁.sizeCols⟩
    · rename_i hOnly
      rw [not_or, not_not, not_not, hCells.first_eq, hCells.last_eq] at hOnly
      have hOne : cs r = [c] := eq_singleton hCells.linked.nodup hOnly.1 hOnly.2
      rcases rowRemove_spec hRep₁ with ⟨m₂, m₃, hUnlink, hFree, hRep₃, hRow₃, hRows₃, hCols₃⟩
      rw [hRep₁.clearRow_singleton hMem hOne, hSame₁.row, hSame₁.col, hCol] at hRep₃
      simp only [hUnlink, hFree, bind_some]
      exact ⟨m₃, as, cs, rfl, hRep₃, fun r' hr' =>
        (hRow₃ r' (by simp [hr'])).trans (hSame₁.row r'),
        hRows₃.trans hSame₁.sizeRows, hCols₃.trans hSame₁.sizeCols⟩

/- The function without a column in some rows. -/
def clearAt (f : Nat → Nat → Option D) (is : List Nat) (col : Nat) : Nat → Nat → Option D :=
  fun i j => if i ∈ is ∧ j = col then none else f i j

omit [DecidableEq R] [DecidableEq C] in
theorem clearAt_cons (f : Nat → Nat → Option D) (i : Nat)
    (is : List Nat) (col : Nat) :
    clearAt (setAt f i col none) is col = clearAt f (i :: is) col := by
  funext i' j
  unfold clearAt setAt
  by_cases hj : j = col
  · by_cases hi : i' = i <;> simp [hi, hj]
  · simp [hj]

/- The loop of `eina_matrixsparse_column_idx_clear`. -/
theorem columnClearFrom_spec {fuel : Nat} (col : Nat)
    (hRep : Represents m (as ++ bs) cs f) (hFuel : bs.length ≤ fuel) :
    ∃ m' rs' cs',
      columnClearFrom col fuel m bs.head? = some m' ∧
      Represents m' rs' cs' (clearAt f (bs.map m.rowOf) col) ∧
      m'.sizeRows = m.sizeRows ∧ m'.sizeCols = m.sizeCols := by
  induction bs generalizing m as cs f fuel with
  | nil =>
    refine ⟨m, as ++ [], cs, by cases fuel <;> rfl, ?_, rfl,
      rfl⟩
    have hSame : clearAt f [] col = f := by
      funext i j
      simp [clearAt]
    rw [map_nil, hSame]
    exact hRep
  | cons r bs ih =>
    cases fuel with
    | zero => simp at hFuel
    | succ fuel =>
      have hLive := hRep.shape.rows.live r (by simp)
      have hNext : (m.rows.node r).next = bs.head? := hRep.shape.rows.linked.next_eq
      rcases rowColumnClear_spec col hRep with ⟨m₁, as₁, cs₁, hClear, hRep₁, hRow₁, hRows₁, hCols₁⟩
      rcases ih hRep₁ (by simpa using hFuel) with ⟨m₂, rs₂, cs₂, hLoop, hRep₂, hRows₂, hCols₂⟩
      rw [map_congr_left hRow₁, clearAt_cons] at hRep₂
      simp only [head?_cons, columnClearFrom, Heap.read_of_mem hLive,
        hClear, hNext, hLoop, bind_eq_bind, bind_some]
      exact ⟨m₂, rs₂, cs₂, rfl, hRep₂, hRows₂.trans hRows₁, hCols₂.trans hCols₁⟩

omit [DecidableEq R] [DecidableEq C] in
/- Clearing a column in all rows. -/
theorem Represents.clearAt_eq (col : Nat)
    (hRep : Represents m rs cs f) : clearAt f (rs.map m.rowOf) col = clearColumn f col := by
  funext i j
  unfold clearAt clearColumn
  by_cases hj : j = col
  · by_cases hi : i ∈ rs.map m.rowOf
    · rw [if_pos ⟨hi, hj⟩, if_pos hj]
    · rw [if_neg (fun h => hi h.1), if_pos hj]
      by_contra hData
      rcases hRep.stores.absent i j hData with ⟨r, hr, hRow, -⟩
      exact hi (mem_map.mpr ⟨r, hr, hRow⟩)
  · rw [if_neg (fun h => hj h.2), if_neg hj]

/- `eina_matrixsparse_column_idx_clear` -/
theorem columnIdxClear_spec (col : Nat) (hRep : Represents m rs cs f) :
    ∃ m' rs' cs', m.columnIdxClear col =
        some (m', decide (col < m.sizeCols)) ∧
      Represents m' rs' cs' (clearColumn f col) ∧
      m'.sizeRows = m.sizeRows ∧ m'.sizeCols = m.sizeCols := by
  unfold columnIdxClear
  split
  · rename_i hIn
    have hFuel := Heap.length_le_card hRep.shape.rows.linked.nodup hRep.shape.rows.live
    have hRep' : Represents m ([] ++ rs) cs f := hRep
    rcases columnClearFrom_spec col hRep' hFuel with ⟨m', rs', cs', hLoop, hRep', hSizes⟩
    rw [hRep.clearAt_eq] at hRep'
    simp only [hRep.shape.rows.first_eq, hLoop, bind_eq_bind, bind_some, decide_eq_true hIn]
    exact ⟨m', rs', cs', rfl, hRep', hSizes⟩
  · rename_i hOut
    have hSame : clearColumn f col = f := by
      funext i j
      unfold clearColumn
      split
      · rename_i hj
        by_contra hData
        exact hOut (hj ▸ (hRep.inside (fun h => hData h.symm)).2)
      · rfl
    rw [decide_eq_false hOut, hSame]
    exact ⟨m, rs, cs, rfl, hRep, rfl, rfl⟩

/- `eina_matrixsparse_cell_idx_clear` -/
theorem cellIdxClear_spec (row col : Nat)
    (hRep : Represents m rs cs f) :
    ∃ m' cs', m.cellIdxClear row col = some (m',
        decide (row < m.sizeRows ∧ col < m.sizeCols)) ∧
      Represents m' rs cs' (setAt f row col none) ∧
      m'.sizeRows = m.sizeRows ∧ m'.sizeCols = m.sizeCols := by
  unfold cellIdxClear
  split
  swap
  · rename_i hOut
    have hNone : f row col = none := by
      by_contra hData
      exact hOut (hRep.inside hData)
    rw [decide_eq_false hOut, setAt_none_eq hNone]
    exact ⟨m, cs, rfl, hRep, rfl, rfl⟩
  rename_i hIn
  rw [decide_eq_true hIn]
  rcases cellIdxGet_spec row col hRep.shape with ⟨m₁, found, hGet, hShape₁, hSame₁, hSome, hNone⟩
  have hRep₁ := hRep.congr hShape₁ hSame₁
  simp only [hGet, bind_eq_bind, bind_some]
  cases found with
  | none =>
    rw [setAt_none_eq (hRep.stores.eq_none (hNone rfl))]
    exact ⟨m₁, cs, rfl, hRep₁, hSame₁.sizeRows, hSame₁.sizeCols⟩
  | some c =>
    rcases hSome c rfl with ⟨r, hr, hRow, hc, hCol⟩
    rcases append_of_mem hc with ⟨ps, qs, hSplit⟩
    rcases cellClear_spec hRep₁ hr hSplit with ⟨m₂, m₃, hUnlink, hFree, hRep₃, -, hRows₃, hCols₃⟩
    rw [hSame₁.row, hSame₁.col, hRow, hCol] at hRep₃
    simp only [cellClear, hUnlink, hFree, bind_eq_bind, bind_some]
    exact ⟨m₃, _, rfl, hRep₃, hRows₃.trans hSame₁.sizeRows, hCols₃.trans hSame₁.sizeCols⟩

end Efl.Eina.Matrixsparse
