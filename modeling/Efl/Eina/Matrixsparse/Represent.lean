import Efl.Eina.Matrixsparse.Index

/-
  Matrices as functions of row and column.

  Main declarations:
    * `Matrixsparse.Shape`
    * `Matrixsparse.Stores`
    * `Matrixsparse.cellIdxGet_spec`
    * `Matrixsparse.cellIdxAdd_spec`
-/

---
-- Shape and Content
---

namespace Efl.Eina.Matrixsparse

variable {R C D : Type}

/- The index of a row, and of a cell. -/
def rowOf (m : Matrixsparse R C D) (r : R) : Nat :=
  (m.rows.node r).idx

def colOf (m : Matrixsparse R C D) (c : C) : Nat :=
  (m.cells.node c).idx

/-
  The rows `rs`, each with its cells `cs r`, are linked, and
  no other node is allocated.
-/
structure Shape (m : Matrixsparse R C D) (rs : List R) (cs : R → List C) : Prop where
  rows : Indexed m.rows m.ends rs
  rows_live : ∀ r ∈ m.rows.live, r ∈ rs
  cells : ∀ r ∈ rs, Indexed m.cells (m.rows.node r).val (cs r)
  parent : ∀ r ∈ rs, ∀ c ∈ cs r,
    (m.cells.node c).val.parent = r
  cells_live : ∀ c ∈ m.cells.live, ∃ r ∈ rs, c ∈ cs r

/- The cells hold the data of `f`, which has no other data. -/
structure Stores (m : Matrixsparse R C D) (rs : List R) (cs : R → List C)
    (f : Nat → Nat → Option D) : Prop where
  stored : ∀ r ∈ rs, ∀ c ∈ cs r,
    f (m.rowOf r) (m.colOf c) = (m.cells.node c).val.data
  absent : ∀ row col, f row col ≠ none →
    ∃ r ∈ rs, m.rowOf r = row ∧ ∃ c ∈ cs r, m.colOf c = col

/- All indices are below the size of the matrix. -/
structure Bounded (m : Matrixsparse R C D) (rs : List R) (cs : R → List C) : Prop where
  row_lt : ∀ r ∈ rs, m.rowOf r < m.sizeRows
  col_lt : ∀ r ∈ rs, ∀ c ∈ cs r, m.colOf c < m.sizeCols

/- The cells and the indices of the rows are the same. -/
structure SameNodes (m m' : Matrixsparse R C D) : Prop where
  cells : m'.cells.node = m.cells.node
  row : ∀ r, m'.rowOf r = m.rowOf r
  sizeRows : m'.sizeRows = m.sizeRows
  sizeCols : m'.sizeCols = m.sizeCols

variable {m m' : Matrixsparse R C D}

theorem SameNodes.trans {m'' : Matrixsparse R C D}
    (hFirst : SameNodes m m') (hSecond : SameNodes m' m'') : SameNodes m m'' where
  cells := hSecond.cells.trans hFirst.cells
  row r := (hSecond.row r).trans (hFirst.row r)
  sizeRows := hSecond.sizeRows.trans hFirst.sizeRows
  sizeCols := hSecond.sizeCols.trans hFirst.sizeCols

theorem SameNodes.col (hSame : SameNodes m m') (c : C) : m'.colOf c = m.colOf c := by
  unfold colOf
  rw [hSame.cells]

variable {rs : List R} {cs : R → List C}

variable {f : Nat → Nat → Option D}

theorem Stores.congr (hStores : Stores m rs cs f) (hSame : SameNodes m m') : Stores m' rs cs f := by
  refine ⟨?_, ?_⟩
  · intro r hr c hc
    rw [hSame.row, hSame.col, hSame.cells]
    exact hStores.stored r hr c hc
  · intro row col hData
    rcases hStores.absent row col hData with ⟨r, hr, hRow, c, hc, hCol⟩
    exact ⟨r, hr, by rw [hSame.row, hRow], c, hc, by rw [hSame.col, hCol]⟩

theorem Bounded.congr (hBounded : Bounded m rs cs) (hSame : SameNodes m m') : Bounded m' rs cs := by
  refine ⟨?_, ?_⟩
  · intro r hr
    rw [hSame.row, hSame.sizeRows]
    exact hBounded.row_lt r hr
  · intro r hr c hc
    rw [hSame.col, hSame.sizeCols]
    exact hBounded.col_lt r hr c hc

/- Rows with the same index are the same. -/
theorem Indexed.eq_of_idx {N α : Type} {h : Nodes N α} {e : Ends N}
    {ns : List N} {a b : N} (hIndexed : Indexed h e ns) (ha : a ∈ ns)
    (hb : b ∈ ns) (hIdx : (h.node a).idx = (h.node b).idx) : a = b := by
  by_contra hne
  rcases List.append_of_mem ha with ⟨as, bs, rfl⟩
  have hPairs := List.pairwise_append.mp hIndexed.ascending
  rcases List.mem_append.mp hb with hb | hb
  · have hLess := hPairs.2.2 b hb a (by simp)
    omega
  · rcases List.mem_cons.mp hb with rfl | hb
    · exact hne rfl
    · have hLess := List.rel_of_pairwise_cons hPairs.2.1 hb
      omega

variable {r : R}

/- Distinct rows have distinct cells. -/
theorem Shape.row_unique {r' : R} {c : C} (hShape : Shape m rs cs)
    (hr : r ∈ rs) (hc : c ∈ cs r) (hr' : r' ∈ rs) (hc' : c ∈ cs r') : r = r' := by
  rw [← hShape.parent r hr c hc, hShape.parent r' hr' c hc']

/- The part of the shape about the other rows. -/
theorem Shape.others (hShape : Shape m rs cs) (r : R) :
    ∀ r' ∈ rs, r' ≠ r →
      Indexed m.cells (m.rows.node r').val (cs r') ∧
        ∀ c ∈ cs r', (m.cells.node c).val.parent = r' :=
  fun r' hr' _ => ⟨hShape.cells r' hr', hShape.parent r' hr'⟩

/- A cell of a row, or of another one. -/
theorem Shape.live_cases [DecidableEq R] (hShape : Shape m rs cs)
    (r : R) : ∀ c ∈ m.cells.live, c ∈ cs r ∨ ∃ r' ∈ rs, r' ≠ r ∧ c ∈ cs r' := by
  intro c hc
  rcases hShape.cells_live c hc with ⟨r', hr', h⟩
  by_cases hSame : r' = r
  · subst hSame
    exact Or.inl h
  · exact Or.inr ⟨r', hr', hSame, h⟩

/- A matrix that holds the data of `f`. -/
structure Represents (m : Matrixsparse R C D) (rs : List R) (cs : R → List C)
    (f : Nat → Nat → Option D) : Prop where
  shape : Shape m rs cs
  stores : Stores m rs cs f
  bounded : Bounded m rs cs

/- The function with another value at one place. -/
def setAt (f : Nat → Nat → Option D) (row col : Nat) (data : Option D) : Nat → Nat → Option D :=
  fun i j => if i = row ∧ j = col then data else f i j

/- The function without a row. -/
def clearRow (f : Nat → Nat → Option D) (row : Nat) : Nat → Nat → Option D :=
  fun i j => if i = row then none else f i j

/- The function without a column. -/
def clearColumn (f : Nat → Nat → Option D) (col : Nat) : Nat → Nat → Option D :=
  fun i j => if j = col then none else f i j

/- The function inside a smaller size. -/
def restrict (f : Nat → Nat → Option D) (rows cols : Nat) : Nat → Nat → Option D :=
  fun i j => if i < rows ∧ j < cols then f i j else none

---
-- Lookups
---

open Option Function
variable [DecidableEq R] [DecidableEq C]

omit [DecidableEq C] in
/- `_eina_matrixsparse_row_idx_get` -/
theorem rowIdxGet_spec (row : Nat) (hShape : Shape m rs cs) :
    ∃ m' found, m.rowIdxGet row = some (m', found) ∧
      Shape m' rs cs ∧ SameNodes m m' ∧
      (∀ r, found = some r → r ∈ rs ∧ m.rowOf r = row) ∧
      (found = none → ∀ r ∈ rs, m.rowOf r ≠ row) := by
  rcases idxGet_spec row hShape.rows with ⟨e, found, hGet, hRows, hSome, hNone⟩
  unfold rowIdxGet
  simp only [hGet, bind_eq_bind, bind_some]
  exact ⟨_, found, rfl, ⟨hRows, hShape.rows_live, hShape.cells, hShape.parent, hShape.cells_live⟩,
    ⟨rfl, fun _ => rfl, rfl, rfl⟩, hSome, hNone⟩

omit [DecidableEq C] in
/- Other pointers into the cells of a row. -/
theorem setEnds_spec {e : Ends C} {l : List C} (hRows : Indexed m.rows m.ends rs) (hMem : r ∈ rs)
    (hRowsLive : ∀ r ∈ m.rows.live, r ∈ rs) (hRow : Indexed m.cells e l)
    (hParent : ∀ c ∈ l, (m.cells.node c).val.parent = r) (hCells :
    ∀ r' ∈ rs, r' ≠ r → Indexed m.cells (m.rows.node r').val (cs r') ∧
    ∀ c ∈ cs r', (m.cells.node c).val.parent = r') (hLive :
    ∀ c ∈ m.cells.live, c ∈ l ∨ ∃ r' ∈ rs, r' ≠ r ∧ c ∈ cs r') :
    ∃ m', m.setEnds r e = some m' ∧
      Shape m' rs (update cs r l) ∧
      SameNodes m m' ∧ m'.cells = m.cells ∧
      (∀ r', (m'.rows.node r').next = (m.rows.node r').next) ∧ (m'.rows.node r).val = e := by
  have hNode : ∀ r', ((m.rows.set r
      { m.rows.node r with val := e }).node r').next =
        (m.rows.node r').next ∧
      ((m.rows.set r
        { m.rows.node r with val := e }).node r').prev =
        (m.rows.node r').prev ∧
      ((m.rows.set r { m.rows.node r with val := e }).node r').idx = (m.rows.node r').idx := by
    intro r'
    by_cases hSame : r' = r
    · subst hSame
      simp
    · simp [hSame]
  unfold setEnds
  rw [Heap.modify_of_mem _ (hRows.live r hMem)]
  refine ⟨_, rfl, ⟨?_, hRowsLive, ?_, ?_, ?_⟩,
    ⟨rfl, fun r' => (hNode r').2.2, rfl, rfl⟩, rfl, fun r' => (hNode r').1, by simp⟩
  · exact hRows.congr (fun r' _ => hNode r') hRows.live
  · intro r' hr'
    by_cases hSame : r' = r
    · subst hSame
      simpa using hRow
    · simpa [hSame] using (hCells r' hr' hSame).1
  · intro r' hr'
    by_cases hSame : r' = r
    · subst hSame
      simpa using hParent
    · simpa [hSame] using (hCells r' hr' hSame).2
  · intro c hc
    rcases hLive c hc with h | ⟨r', hr', hne, h⟩
    · exact ⟨r, hMem, by simpa using h⟩
    · exact ⟨r', hr', by simpa [hne] using h⟩

/- `_eina_matrixsparse_row_cell_idx_get` -/
theorem rowCellIdxGet_spec (col : Nat) (hShape : Shape m rs cs)
    (hMem : r ∈ rs) :
    ∃ m' found, m.rowCellIdxGet r col = some (m', found) ∧
      Shape m' rs cs ∧ SameNodes m m' ∧
      (∀ r', (m'.rows.node r').next = (m.rows.node r').next) ∧
      (∀ c, found = some c → c ∈ cs r ∧ m.colOf c = col) ∧
      (found = none → ∀ c ∈ cs r, m.colOf c ≠ col) := by
  rcases idxGet_spec col (hShape.cells r hMem) with ⟨e, found, hGet, hCells, hSome, hNone⟩
  rcases setEnds_spec hShape.rows hMem hShape.rows_live hCells
      (hShape.parent r hMem) (hShape.others r) (hShape.live_cases r) with
    ⟨m', hSet, hDone, hSame, -, hNext, -⟩
  rw [update_eq_self] at hDone
  unfold rowCellIdxGet
  simp only [Heap.read_of_mem (hShape.rows.live r hMem), hGet, hSet, bind_eq_bind, bind_some]
  exact ⟨m', found, rfl, hDone, hSame, hNext, hSome, hNone⟩

/- `_eina_matrixsparse_cell_idx_get` -/
theorem cellIdxGet_spec (row col : Nat) (hShape : Shape m rs cs) :
    ∃ m' found, m.cellIdxGet row col = some (m', found) ∧
      Shape m' rs cs ∧ SameNodes m m' ∧
      (∀ c, found = some c → ∃ r ∈ rs, m.rowOf r = row ∧ c ∈ cs r ∧
        m.colOf c = col) ∧
      (found = none → ∀ r ∈ rs, m.rowOf r = row → ∀ c ∈ cs r, m.colOf c ≠ col) := by
  rcases rowIdxGet_spec row hShape with ⟨m₁, r, hRow, hShape₁, hSame₁, hSome, hNone⟩
  unfold cellIdxGet
  simp only [hRow, bind_eq_bind, bind_some]
  cases r with
  | none =>
    refine ⟨m₁, none, rfl, hShape₁, hSame₁, by simp, ?_⟩
    intro _ r hr hIdx
    exact (hNone rfl r hr hIdx).elim
  | some r =>
    rcases hSome r rfl with ⟨hMem, hIdx⟩
    rcases rowCellIdxGet_spec col hShape₁ hMem with
      ⟨m₂, c, hCell, hShape₂, hSame₂, -, hSomeC, hNoneC⟩
    refine ⟨m₂, c, hCell, hShape₂, hSame₁.trans hSame₂, ?_, ?_⟩
    · intro c' hc
      rcases hSomeC c' hc with ⟨hcMem, hCol⟩
      rw [hSame₁.col] at hCol
      exact ⟨r, hMem, hIdx, hcMem, hCol⟩
    · intro hc r' hr' hIdx' c' hc'
      have hEq : r' = r := hShape.rows.eq_of_idx hr' hMem (hIdx'.trans hIdx.symm)
      subst hEq
      rw [← hSame₁.col]
      exact hNoneC hc c' hc'

/- `eina_matrixsparse_data_idx_get` -/
theorem dataIdxGet_spec (row col : Nat) (hShape : Shape m rs cs)
    (hStores : Stores m rs cs f) :
    ∃ m', m.dataIdxGet row col = some (m', f row col) ∧ Shape m' rs cs ∧ SameNodes m m' := by
  rcases cellIdxGet_spec row col hShape with ⟨m', found, hGet, hShape', hSame, hSome, hNone⟩
  unfold dataIdxGet
  simp only [hGet, bind_eq_bind, bind_some]
  cases found with
  | none =>
    refine ⟨m', ?_, hShape', hSame⟩
    have hData : f row col = none := by
      by_contra hData
      rcases hStores.absent row col hData with ⟨r, hr, hRow, c, hc, hCol⟩
      exact hNone rfl r hr hRow c hc hCol
    rw [hData]
  | some c =>
    rcases hSome c rfl with ⟨r, hr, hRow, hc, hCol⟩
    have hLive := (hShape'.cells r hr).live c hc
    refine ⟨m', ?_, hShape', hSame⟩
    simp only [Heap.read_of_mem hLive, bind_some]
    rw [hSame.cells, ← hStores.stored r hr c hc, hRow, hCol]

---
-- Additions
---

open List

omit [DecidableEq C] in
/- `_eina_matrixsparse_row_idx_add` -/
theorem rowIdxAdd_spec {row : Nat} (hRep : Represents m rs cs f)
    (hNew : ∀ r ∈ rs, m.rowOf r ≠ row) (hFresh : r ∉ m.rows.live)
    (hRow : row < m.sizeRows) :
    ∃ m' rs', m.rowIdxAdd row (some r) = some (m', some r) ∧
      Represents m' rs' (update cs r []) f ∧
      r ∈ rs' ∧ m'.rowOf r = row ∧ m'.cells = m.cells ∧
      m'.sizeRows = m.sizeRows ∧ m'.sizeCols = m.sizeCols := by
  rcases hRep with ⟨hShape, hStores, hBounded⟩
  rcases idxAdd_spec row r ⟨none, none, none⟩ hShape.rows hNew hFresh with
    ⟨h', e', as, bs, hAdd, rfl, hRows, hLive, hNode, hOld⟩
  have hOut : ∀ r' ∈ as ++ bs, r' ≠ r := by
    rintro r' hr' rfl
    exact hFresh (hShape.rows.live r' hr')
  have hMem : ∀ r', r' ∈ as ++ r :: bs ↔ r' = r ∨ r' ∈ as ++ bs := by
    intro r'
    simp only [mem_append, mem_cons]
    tauto
  have hIdx : ∀ r' ∈ as ++ bs, (h'.node r').idx = (m.rows.node r').idx := by
    intro r' hr'
    rw [hOld r' (hOut r' hr')]
  have hIdxNew : (h'.node r).idx = row := by rw [hNode]
  unfold rowIdxAdd
  simp only [hAdd, bind_eq_bind, bind_some]
  refine ⟨_, as ++ r :: bs, rfl, ⟨⟨hRows, ?_, ?_, ?_, ?_⟩,
    ⟨?_, ?_⟩, ⟨?_, ?_⟩⟩, by simp, hIdxNew, rfl, rfl, rfl⟩
  · intro r' hr'
    rw [hMem]
    rw [hLive, Finset.mem_insert] at hr'
    exact hr'.imp_right (hShape.rows_live r')
  · intro r' hr'
    rcases (hMem r').mp hr' with rfl | hr'
    · rw [update_self, hNode]
      exact ⟨DList.linked_nil, by simp, by simp, rfl, rfl, by simp⟩
    · rw [update_of_ne (hOut r' hr'), hOld r' (hOut r' hr')]
      exact hShape.cells r' hr'
  · intro r' hr'
    rcases (hMem r').mp hr' with rfl | hr'
    · simp
    · rw [update_of_ne (hOut r' hr')]
      exact hShape.parent r' hr'
  · intro c hc
    rcases hShape.cells_live c hc with ⟨r', hr', h⟩
    refine ⟨r', (hMem r').mpr (Or.inr hr'), ?_⟩
    rw [update_of_ne (hOut r' hr')]
    exact h
  · intro r' hr' c hc
    rcases (hMem r').mp hr' with rfl | hr'
    · simp at hc
    · rw [update_of_ne (hOut r' hr')] at hc
      unfold rowOf
      rw [hIdx r' hr']
      exact hStores.stored r' hr' c hc
  · intro i j hData
    rcases hStores.absent i j hData with ⟨r', hr', hi, c, hc, hj⟩
    refine ⟨r', (hMem r').mpr (Or.inr hr'), ?_, c, ?_, hj⟩
    · unfold rowOf
      rw [hIdx r' hr']
      exact hi
    · rw [update_of_ne (hOut r' hr')]
      exact hc
  · intro r' hr'
    unfold rowOf
    rcases (hMem r').mp hr' with rfl | hr'
    · rw [hIdxNew]
      exact hRow
    · rw [hIdx r' hr']
      exact hBounded.row_lt r' hr'
  · intro r' hr' c hc
    rcases (hMem r').mp hr' with rfl | hr'
    · simp at hc
    · rw [update_of_ne (hOut r' hr')] at hc
      exact hBounded.col_lt r' hr' c hc

/- `_eina_matrixsparse_row_cell_idx_add` -/
theorem rowCellIdxAdd_spec {col : Nat} {c : C} (data : Option D)
    (hRep : Represents m rs cs f) (hMem : r ∈ rs)
    (hNew : ∀ c ∈ cs r, m.colOf c ≠ col) (hFresh : c ∉ m.cells.live)
    (hCol : col < m.sizeCols) :
    ∃ m' l, m.rowCellIdxAdd r col data (some c) =
        some (m', some c) ∧
      Represents m' rs (update cs r l) (setAt f (m.rowOf r) col data) ∧
      m'.sizeRows = m.sizeRows ∧ m'.sizeCols = m.sizeCols := by
  rcases hRep with ⟨hShape, hStores, hBounded⟩
  rcases idxAdd_spec col c ⟨data, r⟩ (hShape.cells r hMem) hNew hFresh with
    ⟨h', e', as, bs, hAdd, hSplit, hCells, hLive, hNode, hOld⟩
  have hApart : ∀ r' ∈ rs, ∀ c' ∈ cs r', c' ≠ c := by
    rintro r' hr' c' hc' rfl
    exact hFresh ((hShape.cells r' hr').live c' hc')
  have hIn : ∀ c', c' ∈ as ++ c :: bs ↔ c' = c ∨ c' ∈ cs r := by
    intro c'
    rw [hSplit]
    simp only [mem_append, mem_cons]
    tauto
  -- The cells of the other rows stay as they are.
  have hFar : ∀ r' ∈ rs, r' ≠ r → ∀ c' ∈ cs r', h'.node c' = m.cells.node c' := by
    intro r' hr' hne c' hc'
    have hOut : c' ∉ as ++ bs := by
      rw [← hSplit]
      intro hc
      exact hne (hShape.row_unique hr' hc' hMem hc)
    rw [hOld c' (hApart r' hr' c' hc'), if_neg, if_neg]
    · intro h
      exact hOut (mem_append_right _ (mem_of_head? h.symm))
    · intro h
      exact hOut (mem_append_left _ (mem_of_getLast? h.symm))
  have hData : ∀ r' ∈ rs, ∀ c' ∈ cs r',
      (h'.node c').idx = (m.cells.node c').idx ∧ (h'.node c').val = (m.cells.node c').val := by
    intro r' hr' c' hc'
    rw [hOld c' (hApart r' hr' c' hc')]
    exact ⟨rfl, rfl⟩
  have hIdxNew : (h'.node c).idx = col := by rw [hNode]
  have hLiveOld : ∀ c' ∈ m.cells.live, c' ∈ h'.live := by
    intro c' hc'
    rw [hLive]
    exact Finset.mem_insert_of_mem hc'
  rcases setEnds_spec (m := { m with cells := h' }) (e := e') (l :=
      as ++ c :: bs) hShape.rows hMem hShape.rows_live hCells (by
        intro c' hc'
        rcases (hIn c').mp hc' with rfl | hc'
        · dsimp only
          rw [hNode]
        · dsimp only
          rw [(hData r hMem c' hc').2]
          exact hShape.parent r hMem c' hc')
      (by
        intro r' hr' hne
        refine ⟨(hShape.cells r' hr').congr ?_ ?_, ?_⟩
        · intro c' hc'
          dsimp only
          rw [hFar r' hr' hne c' hc']
          exact ⟨rfl, rfl, rfl⟩
        · intro c' hc'
          exact hLiveOld c' ((hShape.cells r' hr').live c' hc')
        · intro c' hc'
          dsimp only
          rw [hFar r' hr' hne c' hc']
          exact hShape.parent r' hr' c' hc')
      (by
        intro c' hc'
        dsimp only at hc'
        rw [hLive, Finset.mem_insert] at hc'
        rcases hc' with rfl | hc'
        · exact Or.inl ((hIn c').mpr (Or.inl rfl))
        · rcases hShape.live_cases r c' hc' with h | h
          · exact Or.inl ((hIn c').mpr (Or.inr h))
          · exact Or.inr h) with ⟨m', hSet, hDone, hSame, hCellsSame, -, -⟩
  unfold rowCellIdxAdd
  simp only [Heap.read_of_mem (hShape.rows.live r hMem), hAdd, hSet, bind_eq_bind, bind_some]
  have hRowSame : ∀ r', m'.rowOf r' = m.rowOf r' := hSame.row
  have hColSame : ∀ c', m'.colOf c' = (h'.node c').idx := hSame.col
  have hRowEq : ∀ r' ∈ rs, m.rowOf r' = m.rowOf r → r' = r :=
    fun r' hr' h => hShape.rows.eq_of_idx hr' hMem h
  refine ⟨m', as ++ c :: bs, rfl, ⟨hDone, ⟨?_, ?_⟩, ⟨?_, ?_⟩⟩, hSame.sizeRows, hSame.sizeCols⟩
  · intro r' hr' c' hc'
    rw [hRowSame, hColSame, hSame.cells]
    dsimp only
    by_cases hne : r' = r
    · subst hne
      rw [update_self] at hc'
      rcases (hIn c').mp hc' with rfl | hc'
      · rw [hIdxNew, hNode]
        simp [setAt]
      · rw [(hData r' hMem c' hc').1, (hData r' hMem c' hc').2]
        unfold setAt
        rw [if_neg (fun h => hNew c' hc' h.2)]
        exact hStores.stored r' hMem c' hc'
    · rw [update_of_ne hne] at hc'
      rw [(hData r' hr' c' hc').1, (hData r' hr' c' hc').2]
      unfold setAt
      rw [if_neg (fun h => hne (hRowEq r' hr' h.1))]
      exact hStores.stored r' hr' c' hc'
  · intro i j hSome
    by_cases hHere : i = m.rowOf r ∧ j = col
    · refine ⟨r, hMem, by rw [hRowSame, hHere.1], c, ?_, ?_⟩
      · rw [update_self]
        simp
      · rw [hColSame, hIdxNew, hHere.2]
    · unfold setAt at hSome
      rw [if_neg hHere] at hSome
      rcases hStores.absent i j hSome with ⟨r', hr', hi, c', hc', hj⟩
      refine ⟨r', hr', by rw [hRowSame, hi], c', ?_, ?_⟩
      · by_cases hne : r' = r
        · subst hne
          rw [update_self]
          exact (hIn c').mpr (Or.inr hc')
        · rw [update_of_ne hne]
          exact hc'
      · rw [hColSame, (hData r' hr' c' hc').1]
        exact hj
  · intro r' hr'
    rw [hRowSame, hSame.sizeRows]
    exact hBounded.row_lt r' hr'
  · intro r' hr' c' hc'
    rw [hColSame, hSame.sizeCols]
    by_cases hne : r' = r
    · subst hne
      rw [update_self] at hc'
      rcases (hIn c').mp hc' with rfl | hc'
      · rw [hIdxNew]
        exact hCol
      · rw [(hData r' hMem c' hc').1]
        exact hBounded.col_lt r' hMem c' hc'
    · rw [update_of_ne hne] at hc'
      rw [(hData r' hr' c' hc').1]
      exact hBounded.col_lt r' hr' c' hc'

---
-- Removals
---

omit [DecidableEq R] in
/- `_eina_matrixsparse_row_cells_free` frees a list. -/
theorem rowCellsFree_spec {p : Option C} {l : List C} {fuel : Nat}
    (hSeg : DList.Seg (fun c =>
    (m.cells.node c).next) (fun c => (m.cells.node c).prev) p l none)
    (hNodup : l.Nodup) (hLive : ∀ c ∈ l, c ∈ m.cells.live)
    (hFuel : l.length ≤ fuel) :
    ∃ live, rowCellsFree fuel m l.head? =
        some { m with cells := { m.cells with live := live } } ∧
      ∀ c, c ∈ live ↔ c ∈ m.cells.live ∧ c ∉ l := by
  induction l generalizing m p fuel with
  | nil =>
    refine ⟨m.cells.live, ?_, by simp⟩
    cases fuel <;> rfl
  | cons c l ih =>
    cases fuel with
    | zero => simp at hFuel
    | succ fuel =>
      rcases hSeg with ⟨-, hNext, hRest⟩
      rw [nodup_cons] at hNodup
      have hc := hLive c (by simp)
      rw [head?_cons]
      unfold rowCellsFree cellFree
      simp only [Heap.read_of_mem hc, Heap.free_of_mem hc, bind_eq_bind, bind_some, hNext, or_none]
      have hLive' : ∀ c' ∈ l, c' ∈ m.cells.live.erase c := by
        intro c' hc'
        rw [Finset.mem_erase]
        refine ⟨?_, hLive c' (by simp [hc'])⟩
        rintro rfl
        exact hNodup.1 hc'
      rcases ih (m := { m with
          cells :=
            { m.cells with
              live := m.cells.live.erase c } }) hRest hNodup.2 hLive'
          (by simpa using hFuel) with ⟨live, hFree, hMem⟩
      refine ⟨live, hFree, ?_⟩
      intro c'
      rw [hMem c']
      simp only [Finset.mem_erase, mem_cons]
      tauto

/- `_eina_matrixsparse_row_free` frees a row and its cells. -/
theorem rowFree_spec {l : List C} (hLive : r ∈ m.rows.live)
    (hCells : Indexed m.cells (m.rows.node r).val l) :
    ∃ live, m.rowFree r =
        some
          { m with
            rows :=
              { m.rows with
                live := m.rows.live.erase r }
            cells := { m.cells with live := live } } ∧
      ∀ c, c ∈ live ↔ c ∈ m.cells.live ∧ c ∉ l := by
  have hLength := Heap.length_le_card hCells.linked.nodup hCells.live
  rcases rowCellsFree_spec hCells.linked.seg
      hCells.linked.nodup hCells.live hLength with ⟨live, hFree, hMem⟩
  refine ⟨live, ?_, hMem⟩
  unfold rowFree
  simp only [Heap.read_of_mem hLive, hCells.first_eq, hFree,
    Heap.free_of_mem hLive, bind_eq_bind, bind_some]

variable {as bs : List R}

omit [DecidableEq C] in
/-
  What is left of the shape when a row is taken out of the
  list and freed.
-/
theorem Shape.dropRow {h' : Nodes R (Ends C)} {e' : Ends R}
    {live : Finset C} (hShape : Shape m (as ++ r :: bs) cs)
    (hRows : Indexed h' e' (as ++ bs)) (hRowsLive : ∀ r' ∈ h'.live, r' ∈ as ++ bs)
    (hOld : LinksRest m.rows h' as bs r)
    (hLive : ∀ c, c ∈ live ↔ c ∈ m.cells.live ∧ c ∉ cs r) :
    Shape
      { m with
        ends := e'
        rows := h'
        cells := { m.cells with live := live } } (as ++ bs) cs := by
  have hNodup := hShape.rows.linked.nodup
  rw [perm_middle.nodup_iff, nodup_cons] at hNodup
  have hMem : ∀ r' ∈ as ++ bs, r' ∈ as ++ r :: bs := by
    intro r' hr'
    rcases mem_append.mp hr' with h | h <;> simp [h]
  have hne : ∀ r' ∈ as ++ bs, r' ≠ r := by
    rintro r' hr' rfl
    exact hNodup.1 hr'
  have hr : r ∈ as ++ r :: bs := by simp
  refine ⟨hRows, hRowsLive, ?_, ?_, ?_⟩
  · intro r' hr'
    dsimp only
    rw [hOld r' (hne r' hr')]
    refine (hShape.cells r' (hMem r' hr')).congr (fun _ _ => ⟨rfl, rfl, rfl⟩) ?_
    intro c hc
    refine (hLive c).mpr ⟨(hShape.cells r' (hMem r' hr')).live c hc, ?_⟩
    intro hc'
    exact hne r' hr' (hShape.row_unique (hMem r' hr') hc hr hc')
  · intro r' hr'
    exact hShape.parent r' (hMem r' hr')
  · intro c hc
    rcases (hLive c).mp hc with ⟨hc, hOut⟩
    rcases hShape.live_cases r c hc with h | ⟨r', hr', hne', h⟩
    · exact (hOut h).elim
    · refine ⟨r', ?_, h⟩
      simpa [hne'] using hr'

omit [DecidableEq R] [DecidableEq C] in
/- The data without a row. -/
theorem Stores.dropRow {e : Ends R} (hStores : Stores m (as ++ r :: bs) cs f)
    (hRows : Indexed m.rows e (as ++ r :: bs)) (hRow : ∀ r' ∈ as ++ bs, m'.rowOf r' = m.rowOf r')
    (hCells : m'.cells.node = m.cells.node) : Stores m' (as ++ bs) cs (clearRow f (m.rowOf r)) := by
  have hNodup := hRows.linked.nodup
  rw [perm_middle.nodup_iff, nodup_cons] at hNodup
  have hMem : ∀ r' ∈ as ++ bs, r' ∈ as ++ r :: bs := by
    intro r' hr'
    rcases mem_append.mp hr' with h | h <;> simp [h]
  refine ⟨?_, ?_⟩
  · intro r' hr' c hc
    have hne : m.rowOf r' ≠ m.rowOf r := by
      intro hEq
      have hSame := hRows.eq_of_idx (hMem r' hr') (by simp) hEq
      subst hSame
      exact hNodup.1 hr'
    have hCol : m'.colOf c = m.colOf c := by
      unfold colOf
      rw [hCells]
    unfold clearRow
    rw [hRow r' hr', if_neg hne, hCells, hCol]
    exact hStores.stored r' (hMem r' hr') c hc
  · intro i j hData
    unfold clearRow at hData
    split at hData
    · simp at hData
    · rename_i hne
      rcases hStores.absent i j hData with ⟨r', hr', hi, c, hc, hj⟩
      have hRest : r' ∈ as ++ bs := by
        have hOther : r' ≠ r := by
          rintro rfl
          exact hne hi.symm
        simpa [hOther] using hr'
      refine ⟨r', hRest, by rw [hRow r' hRest, hi], c, hc, ?_⟩
      unfold colOf
      rw [hCells]
      exact hj

/- A row that is unlinked and freed. -/
theorem rowRemove_spec (hRep : Represents m (as ++ r :: bs) cs f) :
    ∃ m₁ m₂, m.rowUnlink r = some m₁ ∧
      m₁.rowFree r = some m₂ ∧
      Represents m₂ (as ++ bs) cs (clearRow f (m.rowOf r)) ∧
      (∀ r' ∈ as ++ bs, m₂.rowOf r' = m.rowOf r') ∧
      m₂.sizeRows = m.sizeRows ∧ m₂.sizeCols = m.sizeCols := by
  rcases hRep with ⟨hShape, hStores, hBounded⟩
  have hNodup := hShape.rows.linked.nodup
  rw [perm_middle.nodup_iff, nodup_cons] at hNodup
  have hr : r ∈ as ++ r :: bs := by simp
  have hMem : ∀ r' ∈ as ++ bs, r' ∈ as ++ r :: bs := by
    intro r' hr'
    rcases mem_append.mp hr' with h | h <;> simp [h]
  have hne : ∀ r' ∈ as ++ bs, r' ≠ r := by
    rintro r' hr' rfl
    exact hNodup.1 hr'
  rcases unlink_spec hShape.rows with ⟨h', e', hUnlink, hRows, hLive, hNode, hOld⟩
  unfold rowUnlink
  simp only [hUnlink, bind_eq_bind, bind_some]
  have hCells : Indexed m.cells (h'.node r).val (cs r) := by
    rw [hNode]
    exact hShape.cells r hr
  rcases rowFree_spec (m := { m with rows := h', ends := e' })
      (by rw [hLive]; exact hShape.rows.live r hr) hCells with ⟨live, hFree, hLiveCells⟩
  have hRowSame : ∀ r' ∈ as ++ bs, (h'.node r').idx = (m.rows.node r').idx := by
    intro r' hr'
    rw [hOld r' (hne r' hr')]
  refine ⟨_, _, rfl, hFree, ⟨hShape.dropRow ?_ ?_ hOld
    hLiveCells, hStores.dropRow hShape.rows hRowSame rfl, ⟨?_, ?_⟩⟩, hRowSame, rfl, rfl⟩
  · refine hRows.congr (fun _ _ => ⟨rfl, rfl, rfl⟩) ?_
    intro r' hr'
    rw [Finset.mem_erase]
    exact ⟨hne r' hr', hRows.live r' hr'⟩
  · intro r' hr'
    rw [Finset.mem_erase] at hr'
    dsimp only at hr'
    rw [hLive] at hr'
    simpa [hr'.1] using hShape.rows_live r' hr'.2
  · intro r' hr'
    exact (hRowSame r' hr').trans_lt (hBounded.row_lt r' (hMem r' hr'))
  · intro r' hr'
    exact hBounded.col_lt r' (hMem r' hr')

omit [DecidableEq C] in
theorem setEnds_eq (e : Ends C) (hLive : r ∈ m.rows.live) :
    m.setEnds r e = some
      { m with
        rows := m.rows.set r { m.rows.node r with val := e } } := by
  unfold setEnds
  rw [Heap.modify_of_mem _ hLive]
  rfl

/- `eina_matrixsparse_cell_clear` -/
theorem cellClear_spec {as bs : List C} {c : C} (hRep : Represents m rs cs f) (hMem : r ∈ rs)
    (hSplit : cs r = as ++ c :: bs) :
    ∃ m₁ m₂, m.cellUnlink c = some m₁ ∧
      m₁.cellFree c = some m₂ ∧ Represents m₂ rs (update cs r (as ++ bs))
        (setAt f (m.rowOf r) (m.colOf c) none) ∧
      (∀ r', m₂.rowOf r' = m.rowOf r') ∧ m₂.sizeRows = m.sizeRows ∧ m₂.sizeCols = m.sizeCols := by
  rcases hRep with ⟨hShape, hStores, hBounded⟩
  have hIndexed := hShape.cells r hMem
  rw [hSplit] at hIndexed
  have hNodup := hIndexed.linked.nodup
  rw [perm_middle.nodup_iff, nodup_cons] at hNodup
  have hc : c ∈ cs r := by simp [hSplit]
  have hcLive := (hShape.cells r hMem).live c hc
  have hrLive := hShape.rows.live r hMem
  have hParent := hShape.parent r hMem c hc
  rcases unlink_spec hIndexed with ⟨h', e', hUnlink, hCells, hLive, -, hOld⟩
  have hIn : ∀ c', c' ∈ as ++ bs ↔ c' ∈ cs r ∧ c' ≠ c := by
    intro c'
    rw [hSplit]
    simp only [mem_append, mem_cons]
    constructor
    · intro h
      refine ⟨h.imp_right Or.inr, ?_⟩
      rintro rfl
      exact hNodup.1 (by simpa using h)
    · tauto
  have hFar : ∀ r' ∈ rs, r' ≠ r → ∀ c' ∈ cs r', c' ≠ c := by
    rintro r' hr' hne c' hc' rfl
    exact hne (hShape.row_unique hr' hc' hMem hc)
  have hData : ∀ c', c' ≠ c →
      (h'.node c').idx = (m.cells.node c').idx ∧ (h'.node c').val = (m.cells.node c').val := by
    intro c' hne
    rw [hOld c' hne]
    exact ⟨rfl, rfl⟩
  have hFarNode : ∀ r' ∈ rs, r' ≠ r → ∀ c' ∈ cs r', h'.node c' = m.cells.node c' := by
    intro r' hr' hne c' hc'
    have hOut : c' ∉ as ++ bs := by
      intro h
      exact hne (hShape.row_unique hr' hc' hMem ((hIn c').mp h).1)
    rw [hOld c' (hFar r' hr' hne c' hc'), if_neg, if_neg]
    · intro h
      exact hOut (mem_append_right _ (mem_of_head? h.symm))
    · intro h
      exact hOut (mem_append_left _ (mem_of_getLast? h.symm))
  -- The heap of the cells at the end.
  have hFreed : Indexed { h' with live := h'.live.erase c } e' (as ++ bs) := by
    refine hCells.congr (fun _ _ => ⟨rfl, rfl, rfl⟩) ?_
    intro c' hc'
    rw [Finset.mem_erase]
    exact ⟨((hIn c').mp hc').2, hCells.live c' hc'⟩
  rcases setEnds_spec (m := { m with
        cells := { h' with live := h'.live.erase c } })
      (e := e') (l := as ++ bs) hShape.rows hMem hShape.rows_live hFreed
      (by
        intro c' hc'
        rcases (hIn c').mp hc' with ⟨hc', hne⟩
        dsimp only
        rw [(hData c' hne).2]
        exact hShape.parent r hMem c' hc')
      (by
        intro r' hr' hne
        refine ⟨(hShape.cells r' hr').congr ?_ ?_, ?_⟩
        · intro c' hc'
          dsimp only
          rw [hFarNode r' hr' hne c' hc']
          exact ⟨rfl, rfl, rfl⟩
        · intro c' hc'
          dsimp only
          rw [Finset.mem_erase, hLive]
          exact ⟨hFar r' hr' hne c' hc', (hShape.cells r' hr').live c' hc'⟩
        · intro c' hc'
          dsimp only
          rw [hFarNode r' hr' hne c' hc']
          exact hShape.parent r' hr' c' hc')
      (by
        intro c' hc'
        dsimp only at hc'
        rw [Finset.mem_erase, hLive] at hc'
        rcases hShape.live_cases r c' hc'.2 with h | h
        · exact Or.inl ((hIn c').mpr ⟨h, hc'.1⟩)
        · exact Or.inr h) with ⟨m', hSet, hDone, hSame, -, -, -⟩
  rw [setEnds_eq _ (by exact hrLive)] at hSet
  have hEnd := some.inj hSet
  unfold cellUnlink cellFree
  simp only [Heap.read_of_mem hcLive, hParent,
    Heap.read_of_mem hrLive, hUnlink, bind_eq_bind, bind_some]
  rw [setEnds_eq _ (by exact hrLive)]
  refine ⟨_, m', rfl, ?_, ⟨hDone, ⟨?_, ?_⟩, ⟨?_, ?_⟩⟩, hSame.row, hSame.sizeRows, hSame.sizeCols⟩
  · dsimp only
    rw [Heap.free_of_mem (by rw [hLive]; exact hcLive), ← hEnd]
    rfl
  · intro r' hr' c' hc'
    rw [hSame.row, hSame.col, hSame.cells]
    have hKept : c' ∈ cs r' ∧ c' ≠ c := by
      by_cases hne : r' = r
      · subst hne
        rw [update_self] at hc'
        exact (hIn c').mp hc'
      · rw [update_of_ne hne] at hc'
        exact ⟨hc', hFar r' hr' hne c' hc'⟩
    show setAt f (m.rowOf r) (m.colOf c) none (m.rowOf r') (h'.node c').idx = (h'.node c').val.data
    rw [(hData c' hKept.2).1, (hData c' hKept.2).2]
    unfold setAt
    rw [if_neg]
    · exact hStores.stored r' hr' c' hKept.1
    · rintro ⟨hRow, hCol⟩
      have hEq := hShape.rows.eq_of_idx hr' hMem hRow
      subst hEq
      exact hKept.2 ((hShape.cells r' hr').eq_of_idx hKept.1 hc hCol)
  · intro i j hSome
    unfold setAt at hSome
    split at hSome
    · simp at hSome
    · rename_i hOther
      rcases hStores.absent i j hSome with ⟨r', hr', hi, c', hc', hj⟩
      have hne : c' ≠ c := by
        rintro rfl
        apply hOther
        rw [← hi, ← hj, hShape.row_unique hr' hc' hMem hc]
        exact ⟨rfl, rfl⟩
      refine ⟨r', hr', by rw [hSame.row]; exact hi, c', ?_, ?_⟩
      · by_cases hEq : r' = r
        · subst hEq
          rw [update_self]
          exact (hIn c').mpr ⟨hc', hne⟩
        · rw [update_of_ne hEq]
          exact hc'
      · rw [hSame.col]
        exact (hData c' hne).1.trans hj
  · intro r' hr'
    rw [hSame.row, hSame.sizeRows]
    exact hBounded.row_lt r' hr'
  · intro r' hr' c' hc'
    have hKept : c' ∈ cs r' ∧ c' ≠ c := by
      by_cases hne : r' = r
      · subst hne
        rw [update_self] at hc'
        exact (hIn c').mp hc'
      · rw [update_of_ne hne] at hc'
        exact ⟨hc', hFar r' hr' hne c' hc'⟩
    rw [hSame.col, hSame.sizeCols]
    exact (hData c' hKept.2).1.trans_lt (hBounded.col_lt r' hr' c' hKept.1)

end Efl.Eina.Matrixsparse
