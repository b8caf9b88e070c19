import Efl.Eina.Matrixsparse.Calls

/-
  The iterators over a matrix: the one over the stored cells,
  and the complete one, with a dummy cell at each other place.

  Both go to the first cell of the next row, and stop when
  there is none.  A row that has lost its cells one by one is
  still in the list, so they are right exactly when no such
  row is before one with cells.

  Main declarations:
    * `Matrixsparse.iteratorNext`
    * `Matrixsparse.iteratorCompleteNext`
    * `Matrixsparse.iterate_spec`
    * `Matrixsparse.iterateComplete_spec`
-/

---
-- The Iterators
---

namespace Efl.Eina.Matrixsparse

section

variable {R C D : Type} [DecidableEq R] [DecidableEq C]

/- `ref`, which both iterators have. -/
structure Ref (R C : Type) where
  row : Option R
  col : Option C

/- `eina_matrixsparse_iterator_new` -/
def iteratorNew (m : Matrixsparse R C D) : Option (Ref R C) :=
  match m.ends.first with
  | none => some ⟨none, none⟩
  | some r => do
    let x ← m.rows.read r
    some ⟨some r, x.val.first⟩

/- The step from the cell `c` to the next one. -/
def refNext (m : Matrixsparse R C D) (ref : Ref R C) (c : C) : Option (Ref R C) := do
  let x ← m.cells.read c
  match x.next with
  | some next => some { ref with col := some next }
  | none => do
    let r ← ref.row
    let y ← m.rows.read r
    match y.next with
    | none => some ⟨none, none⟩
    | some next => do
      let z ← m.rows.read next
      some ⟨some next, z.val.first⟩

/- `_eina_matrixsparse_iterator_next` -/
def iteratorNext (m : Matrixsparse R C D) (ref : Ref R C) : Option (Ref R C × Option C) :=
  match ref.col with
  | none => some (ref, none)
  | some c => do
    let ref ← m.refNext ref c
    some (ref, some c)

/- What the iterator yields, from `ref` on. -/
def iterateFrom (m : Matrixsparse R C D) : Nat → Ref R C → Option (List C)
  | 0, _ => none
  | fuel + 1, ref => do
    let (ref, c) ← m.iteratorNext ref
    match c with
    | none => some []
    | some c => do
      let rest ← iterateFrom m fuel ref
      some (c :: rest)

/- All that it yields. -/
def iterate (m : Matrixsparse R C D) : Option (List C) := do
  let ref ← m.iteratorNew
  m.iterateFrom (m.cells.live.card + 1) ref

/- What the complete iterator yields at a place. -/
inductive Entry (C : Type) where
  | cell (c : C)
  | dummy (row col : Nat)
  deriving DecidableEq

/- `Eina_Matrixsparse_Iterator_Complete` -/
structure IteratorComplete (R C : Type) where
  idxRow : Nat
  idxCol : Nat
  ref : Ref R C

/- `ref.col` is the cell at the place `idx`. -/
def refHere (m : Matrixsparse R C D) (it : IteratorComplete R C) : Option (Option C) :=
  match it.ref.col with
  | none => some none
  | some c => do
    let x ← m.cells.read c
    if x.idx = it.idxCol then do
      let r ← it.ref.row
      let y ← m.rows.read r
      if y.idx = it.idxRow then some (some c) else some none
    else
      some none

/- `_eina_matrixsparse_iterator_complete_next` -/
def iteratorCompleteNext (m : Matrixsparse R C D) (it : IteratorComplete R C) :
    Option (IteratorComplete R C × Option (Entry C)) :=
  if m.sizeRows ≤ it.idxRow then
    some (it, none)
  else do
    let here ← m.refHere it
    let (ref, entry) ←
      match here with
      | some c => do
        let ref ← m.refNext it.ref c
        some (ref, Entry.cell c)
      | none => some (it.ref, Entry.dummy it.idxRow it.idxCol)
    if it.idxCol + 1 = m.sizeCols then
      some (⟨it.idxRow + 1, 0, ref⟩, some entry)
    else
      some (⟨it.idxRow, it.idxCol + 1, ref⟩, some entry)

def iterateCompleteFrom (m : Matrixsparse R C D) :
    Nat → IteratorComplete R C → Option (List (Entry C))
  | 0, _ => none
  | fuel + 1, it => do
    let (it, entry) ← m.iteratorCompleteNext it
    match entry with
    | none => some []
    | some entry => do
      let rest ← iterateCompleteFrom m fuel it
      some (entry :: rest)

/- All that the complete iterator yields. -/
def iterateComplete (m : Matrixsparse R C D) : Option (List (Entry C)) := do
  let ref ← m.iteratorNew
  m.iterateCompleteFrom (m.sizeRows * m.sizeCols + 1) ⟨0, 0, ref⟩

end

variable {R C D : Type}

/- No row without cells is before a row with cells. -/
def NoGap (m : Matrixsparse R C D) : Prop :=
  ∀ r ∈ m.rows.live, ∀ r' ∈ m.rows.live,
    m.rowOf r < m.rowOf r' →
      (m.rows.node r').val.first ≠ none →
      (m.rows.node r).val.first ≠ none

/- The order of places, row by row. -/
def Before (p q : Nat × Nat) : Prop :=
  p.1 < q.1 ∨ p.1 = q.1 ∧ p.2 < q.2

/- Each stored cell once, in row-major order. -/
def RowMajor (m : Matrixsparse R C D) (cells : List C) : Prop :=
  (∀ c, c ∈ cells ↔ c ∈ m.cells.live) ∧
    cells.Pairwise fun a b => Before (m.place a) (m.place b)

/- The stored cell at a place, or the dummy. -/
def EntryAt (m : Matrixsparse R C D) (row col : Nat) (entry : Entry C) : Prop :=
  (∀ c ∈ m.cells.live, m.place c = (row, col) →
    entry = .cell c) ∧
  ((∀ c ∈ m.cells.live, m.place c ≠ (row, col)) →
    entry = .dummy row col)

/- The entries at all places, in row-major order. -/
def Complete (m : Matrixsparse R C D) (entries : List (Entry C)) : Prop :=
  entries.length = m.sizeRows * m.sizeCols ∧
    ∀ row < m.sizeRows, ∀ col < m.sizeCols, ∀ entry,
      entries[row * m.sizeCols + col]? = some entry →
      m.EntryAt row col entry

---
-- Cells in Row-Major Order
---

open List

/- The cells up to the first row that has none. -/
def cellsUpTo (cs : R → List C) : List R → List C
  | [] => []
  | r :: rs =>
    match cs r with
    | [] => []
    | c :: l => c :: l ++ cellsUpTo cs rs

variable {cs : R → List C} {rs : List R}

theorem cellsUpTo_cons_nil {r : R} (hRow : cs r = []) : cellsUpTo cs (r :: rs) = [] := by
  simp [cellsUpTo, hRow]

theorem cellsUpTo_cons_of_ne {r : R} (hRow : cs r ≠ []) :
    cellsUpTo cs (r :: rs) = cs r ++ cellsUpTo cs rs := by
  rcases hList : cs r with - | ⟨c, l⟩
  · exact (hRow hList).elim
  · simp [cellsUpTo, hList]

theorem cellsUpTo_sublist (cs : R → List C) (rs : List R) :
    (cellsUpTo cs rs).Sublist (rs.flatMap cs) := by
  induction rs with
  | nil => simp [cellsUpTo]
  | cons r rs ih =>
    rw [flatMap_cons]
    by_cases hRow : cs r = []
    · rw [cellsUpTo_cons_nil hRow]
      exact nil_sublist _
    · rw [cellsUpTo_cons_of_ne hRow]
      exact (List.Sublist.refl _).append ih

/- The rows before the row of such a cell have cells. -/
theorem mem_cellsUpTo {c : C} :
    c ∈ cellsUpTo cs rs ↔ ∃ as r bs, rs = as ++ r :: bs ∧ c ∈ cs r ∧ ∀ r' ∈ as, cs r' ≠ [] := by
  induction rs with
  | nil => simp [cellsUpTo]
  | cons r rs ih =>
    by_cases hRow : cs r = []
    · rw [cellsUpTo_cons_nil hRow]
      constructor
      · intro h
        simp at h
      · rintro ⟨as, r', bs, hSplit, hc, hAs⟩
        rcases as with - | ⟨a, as⟩
        · obtain ⟨rfl, rfl⟩ : r = r' ∧ rs = bs := by
            simpa using hSplit
          simp [hRow] at hc
        · obtain ⟨rfl, -⟩ : r = a ∧ _ := by
            simpa using hSplit
          exact (hAs r (by simp) hRow).elim
    · rw [cellsUpTo_cons_of_ne hRow, mem_append, ih]
      constructor
      · rintro (hc | ⟨as, r', bs, rfl, hc, hAs⟩)
        · exact ⟨[], r, rs, rfl, hc, by simp⟩
        · refine ⟨r :: as, r', bs, rfl, hc, ?_⟩
          intro a ha
          rcases mem_cons.mp ha with rfl | ha
          · exact hRow
          · exact hAs a ha
      · rintro ⟨as, r', bs, hSplit, hc, hAs⟩
        rcases as with - | ⟨a, as⟩
        · obtain ⟨rfl, -⟩ : r = r' ∧ rs = bs := by
            simpa using hSplit
          exact Or.inl hc
        · obtain ⟨-, rfl⟩ : r = a ∧ rs = as ++ r' :: bs := by
            simpa using hSplit
          exact Or.inr ⟨as, r', bs, rfl, hc, fun r'' h => hAs r'' (by simp [h])⟩

variable {m : Matrixsparse R C D}

section

variable (hShape : Shape m rs cs)

include hShape

/- All cells are in row-major order. -/
theorem Shape.rowMajor : RowMajor m (rs.flatMap cs) := by
  refine ⟨?_, ?_⟩
  · intro c
    rw [mem_flatMap]
    constructor
    · rintro ⟨r, hr, hc⟩
      exact (hShape.cells r hr).live c hc
    · exact hShape.cells_live c
  · rw [pairwise_flatMap]
    refine ⟨?_, ?_⟩
    · intro r hr
      refine (hShape.cells r hr).ascending.imp_of_mem ?_
      intro a b ha hb hLess
      refine Or.inr ⟨?_, hLess⟩
      unfold place
      rw [hShape.parent r hr a ha, hShape.parent r hr b hb]
    · refine hShape.rows.ascending.imp_of_mem ?_
      intro r r' hr hr' hLess a ha b hb
      refine Or.inl ?_
      unfold place
      rw [hShape.parent r hr a ha, hShape.parent r' hr' b hb]
      exact hLess

/- A row has cells when its first one is not NULL. -/
theorem Shape.first_ne_none {r : R}
    (hMem : r ∈ rs) : (m.rows.node r).val.first ≠ none ↔ cs r ≠ [] := by
  rw [(hShape.cells r hMem).first_eq]
  simp

/- No cell is behind a row without cells. -/
theorem Shape.noGap_iff : NoGap m ↔ ∀ c ∈ m.cells.live, c ∈ cellsUpTo cs rs := by
  have hPairs : ∀ {as bs : List R} {r' : R},
      rs = as ++ r' :: bs →
      (∀ r ∈ as, m.rowOf r < m.rowOf r') ∧ ∀ r ∈ bs, m.rowOf r' < m.rowOf r := by
    intro as bs r' hSplit
    have hAscending := hShape.rows.ascending
    rw [hSplit, pairwise_append, pairwise_cons] at hAscending
    exact ⟨fun r hr => hAscending.2.2 r hr r' (by simp), fun r hr => hAscending.2.1.1 r hr⟩
  constructor
  · intro hGap c hc
    rcases hShape.cells_live c hc with ⟨r', hr', hMem⟩
    rcases append_of_mem hr' with ⟨as, bs, hSplit⟩
    refine mem_cellsUpTo.mpr ⟨as, r', bs, hSplit, hMem, ?_⟩
    intro r hr
    have hrMem : r ∈ rs := by simp [hSplit, hr]
    rw [← hShape.first_ne_none hrMem]
    refine hGap r (hShape.rows.live r hrMem) r'
      (hShape.rows.live r' hr') ((hPairs hSplit).1 r hr) ?_
    rw [hShape.first_ne_none hr']
    exact ne_nil_of_mem hMem
  · intro hAll r hr r' hr' hLess hSome
    have hrMem := hShape.rows_live r hr
    have hrMem' := hShape.rows_live r' hr'
    rw [hShape.first_ne_none hrMem'] at hSome
    rw [hShape.first_ne_none hrMem]
    rcases exists_mem_of_ne_nil _ hSome with ⟨c, hc⟩
    rcases mem_cellsUpTo.mp (hAll c ((hShape.cells r' hrMem').live c hc)) with
      ⟨as, r'', bs, hSplit, hc', hAs⟩
    have hMem'' : r'' ∈ rs := by simp [hSplit]
    have hEq := hShape.row_unique hMem'' hc' hrMem' hc
    subst hEq
    rw [hSplit] at hrMem
    rcases mem_append.mp hrMem with h | h
    · exact hAs r h
    · rcases mem_cons.mp h with rfl | h
      · omega
      · have hFar := (hPairs hSplit).2 r h
        omega

/- The cells that are yielded are all, or not all. -/
theorem Shape.rowMajor_iff : RowMajor m (cellsUpTo cs rs) ↔ NoGap m := by
  have hSub := cellsUpTo_sublist cs rs
  rw [hShape.noGap_iff]
  constructor
  · intro h c hc
    exact (h.1 c).mpr hc
  · intro hAll
    refine ⟨fun c => ⟨?_, hAll c⟩, hShape.rowMajor.2.sublist hSub⟩
    intro hc
    exact (hShape.rowMajor.1 c).mp (hSub.mem hc)

end

---
-- The Iterator over the Cells
---

open Option
variable [DecidableEq R] [DecidableEq C]

/- The cells `left` are not yet yielded at `ref`. -/
def At (rs : List R) (cs : R → List C) (ref : Ref R C) (left : List C) : Prop :=
  (ref.col = none ∧ left = []) ∨
    ∃ as r bs ps c qs, rs = as ++ r :: bs ∧
      cs r = ps ++ c :: qs ∧ ref = ⟨some r, some c⟩ ∧
      left = c :: qs ++ cellsUpTo cs bs

omit [DecidableEq R] [DecidableEq C] in
/- The first cell of a row. -/
theorem at_row {as bs : List R} {r : R} (hSplit : rs = as ++ r :: bs) :
    At rs cs ⟨some r, (cs r).head?⟩ (cellsUpTo cs (r :: bs)) := by
  rcases hRow : cs r with - | ⟨c, l⟩
  · exact Or.inl ⟨rfl, cellsUpTo_cons_nil hRow⟩
  · refine Or.inr ⟨as, r, bs, [], c, l, hSplit, hRow, rfl, ?_⟩
    rw [cellsUpTo_cons_of_ne (by simp [hRow]), hRow]

omit [DecidableEq C] in
/- `eina_matrixsparse_iterator_new` -/
theorem iteratorNew_spec (hShape : Shape m rs cs) :
    ∃ ref, m.iteratorNew = some ref ∧ At rs cs ref (cellsUpTo cs rs) := by
  unfold iteratorNew
  rw [hShape.rows.first_eq]
  cases rs with
  | nil => exact ⟨_, rfl, Or.inl ⟨rfl, rfl⟩⟩
  | cons r rs =>
    have hr : r ∈ r :: rs := by simp
    have hFirst := (hShape.cells r hr).first_eq
    have hSplit : r :: rs = [] ++ r :: rs := rfl
    refine ⟨⟨some r, (cs r).head?⟩, ?_, at_row hSplit⟩
    simp only [head?_cons, Heap.read_of_mem (hShape.rows.live r hr),
      bind_eq_bind, bind_some, hFirst]

/- The step to the next cell. -/
theorem refNext_spec {ref : Ref R C} {c : C} {left : List C}
    (hShape : Shape m rs cs) (hAt : At rs cs ref (c :: left)) :
    ref.col = some c ∧ ∃ ref', m.refNext ref c = some ref' ∧ At rs cs ref' left := by
  rcases hAt with ⟨-, hNil⟩ | ⟨as, r, bs, ps, c', qs, hSplit, hRow, rfl, hLeft⟩
  · simp at hNil
  rw [cons_append, List.cons.injEq] at hLeft
  rcases hLeft with ⟨rfl, rfl⟩
  refine ⟨rfl, ?_⟩
  have hr : r ∈ rs := by simp [hSplit]
  have hc : c ∈ cs r := by simp [hRow]
  have hCells := hShape.cells r hr
  have hcLive := hCells.live c hc
  have hNext : (m.cells.node c).next = qs.head? := by
    have hLinked := hCells.linked
    rw [hRow] at hLinked
    exact hLinked.next_eq
  unfold refNext
  simp only [Heap.read_of_mem hcLive, bind_eq_bind, bind_some, hNext]
  cases qs with
  | cons q qs =>
    exact ⟨_, rfl, Or.inr ⟨as, r, bs, ps ++ [c], q, qs, hSplit, by simp [hRow], rfl, rfl⟩⟩
  | nil =>
    have hRowNext : (m.rows.node r).next = bs.head? := by
      have hLinked := hShape.rows.linked
      rw [hSplit] at hLinked
      exact hLinked.next_eq
    simp only [head?_nil, bind_some, Heap.read_of_mem (hShape.rows.live r hr), hRowNext]
    cases bs with
    | nil => exact ⟨_, rfl, Or.inl ⟨rfl, rfl⟩⟩
    | cons b bs =>
      have hb : b ∈ rs := by simp [hSplit]
      simp only [head?_cons, Heap.read_of_mem (hShape.rows.live b hb),
        bind_some, (hShape.cells b hb).first_eq]
      have hRows : rs = (as ++ [r]) ++ b :: bs := by
        simp [hSplit]
      exact ⟨_, rfl, at_row hRows⟩

/- The iterator yields the cells that are left. -/
theorem iterateFrom_spec {ref : Ref R C} {left : List C} {fuel : Nat}
    (hShape : Shape m rs cs) (hAt : At rs cs ref left)
    (hFuel : left.length < fuel) : m.iterateFrom fuel ref = some left := by
  induction left generalizing ref fuel with
  | nil =>
    have hCol : ref.col = none := by
      rcases hAt with ⟨hCol, -⟩ | ⟨_, _, _, _, _, _, -, -, -, hLeft⟩
      · exact hCol
      · simp at hLeft
    cases fuel with
    | zero => simp at hFuel
    | succ fuel => simp [iterateFrom, iteratorNext, hCol]
  | cons c left ih =>
    rcases refNext_spec hShape hAt with ⟨hCol, ref', hNext, hAt'⟩
    cases fuel with
    | zero => simp at hFuel
    | succ fuel =>
      have hRest := ih hAt' (by simpa using hFuel)
      simp [iterateFrom, iteratorNext, hCol, hNext, hRest]

omit [DecidableEq R] [DecidableEq C] in
/- No cell is yielded twice. -/
theorem RowMajor.nodup {cells : List C} (hCells : RowMajor m cells) : cells.Nodup := by
  refine hCells.2.imp ?_
  rintro a b hLess rfl
  unfold Before at hLess
  omega

/- All that the iterator yields. -/
theorem iterate_spec (hShape : Shape m rs cs) : m.iterate = some (cellsUpTo cs rs) := by
  rcases iteratorNew_spec hShape with ⟨ref, hNew, hAt⟩
  have hSub := cellsUpTo_sublist cs rs
  have hNodup := hShape.rowMajor.nodup.sublist hSub
  have hLive : ∀ c ∈ cellsUpTo cs rs, c ∈ m.cells.live :=
    fun c hc => (hShape.rowMajor.1 c).mp (hSub.mem hc)
  have hFuel := Heap.length_le_card hNodup hLive
  unfold iterate
  simp only [hNew, bind_eq_bind, bind_some]
  exact iterateFrom_spec hShape hAt (by omega)

end Efl.Eina.Matrixsparse

---
-- The Complete Iterator
---

namespace Efl.Eina.Matrixsparse

open List Option

variable {R C D : Type}

/- The number of a place in row-major order. -/
def posOf (m : Matrixsparse R C D) (c : C) : Nat :=
  (m.place c).1 * m.sizeCols + (m.place c).2

/- The entries at `n` places from `k` on. -/
def fill (m : Matrixsparse R C D) : List C → Nat → Nat → List (Entry C)
  | _, _, 0 => []
  | [], k, n + 1 =>
    .dummy (k / m.sizeCols) (k % m.sizeCols) ::
      fill m [] (k + 1) n
  | c :: left, k, n + 1 =>
    if m.posOf c = k then
      .cell c :: fill m left (k + 1) n
    else
      .dummy (k / m.sizeCols) (k % m.sizeCols) ::
        fill m (c :: left) (k + 1) n

theorem length_fill (m : Matrixsparse R C D) (left : List C)
    (k n : Nat) : (m.fill left k n).length = n := by
  induction n generalizing left k with
  | zero => cases left <;> rfl
  | succ n ih =>
    cases left with
    | nil => simp [fill, ih]
    | cons c left =>
      unfold fill
      split <;> simp [ih]

variable {m : Matrixsparse R C D}

variable {left : List C}

/- Each cell is at its own place. -/
theorem fill_spec {k n i : Nat} {entry : Entry C}
    (hSorted : left.Pairwise fun a b => m.posOf a < m.posOf b) (hFrom : ∀ c ∈ left, k ≤ m.posOf c)
    (hEntry : (m.fill left k n)[i]? = some entry) :
    (∀ c ∈ left, m.posOf c = k + i → entry = .cell c) ∧
      ((∀ c ∈ left, m.posOf c ≠ k + i) → entry =
      .dummy ((k + i) / m.sizeCols) ((k + i) % m.sizeCols)) := by
  induction n generalizing left k i with
  | zero => cases left <;> simp [fill] at hEntry
  | succ n ih =>
    have hShift : ∀ i, k + 1 + i = k + (i + 1) := by omega
    cases left with
    | nil =>
      cases i with
      | zero =>
        simp only [fill, getElem?_cons_zero, Option.some.injEq] at hEntry
        exact ⟨by simp, fun _ => hEntry.symm⟩
      | succ i =>
        simp only [fill, getElem?_cons_succ] at hEntry
        simpa only [hShift] using ih List.Pairwise.nil (by simp) hEntry
    | cons c left =>
      rw [pairwise_cons] at hSorted
      unfold fill at hEntry
      split at hEntry
      · rename_i hHere
        have hLater : ∀ d ∈ left, k + 1 ≤ m.posOf d := by
          intro d hd
          have hLess := hSorted.1 d hd
          omega
        cases i with
        | zero =>
          simp only [getElem?_cons_zero, Option.some.injEq] at hEntry
          refine ⟨?_, ?_⟩
          · intro d hd hPos
            rcases mem_cons.mp hd with rfl | hd
            · exact hEntry.symm
            · have hFar := hLater d hd
              omega
          · intro hNone
            exact (hNone c (by simp) (by omega)).elim
        | succ i =>
          simp only [getElem?_cons_succ] at hEntry
          have hRest := ih hSorted.2 hLater hEntry
          rw [hShift] at hRest
          refine ⟨?_, ?_⟩
          · intro d hd hPos
            rcases mem_cons.mp hd with rfl | hd
            · omega
            · exact hRest.1 d hd hPos
          · intro hNone
            exact hRest.2 (fun d hd => hNone d (by simp [hd]))
      · rename_i hOther
        have hHead := hFrom c (by simp)
        have hLater : ∀ d ∈ c :: left, k + 1 ≤ m.posOf d := by
          intro d hd
          rcases mem_cons.mp hd with rfl | hd
          · omega
          · have hLess := hSorted.1 d hd
            omega
        cases i with
        | zero =>
          simp only [getElem?_cons_zero, Option.some.injEq] at hEntry
          refine ⟨?_, fun _ => hEntry.symm⟩
          intro d hd hPos
          have hFar := hLater d hd
          omega
        | succ i =>
          simp only [getElem?_cons_succ] at hEntry
          have hRest := ih (pairwise_cons.mpr hSorted) hLater hEntry
          rwa [hShift] at hRest

/- The place with a given number. -/
theorem posOf_eq_iff {c : C} {k : Nat} (hCol : m.colOf c < m.sizeCols) :
    m.posOf c = k ↔ m.place c = (k / m.sizeCols, k % m.sizeCols) := by
  have hSnd : (m.place c).2 = m.colOf c := rfl
  unfold posOf
  rw [Prod.ext_iff]
  dsimp only
  rw [hSnd]
  constructor
  · rintro rfl
    rw [Nat.add_comm, Nat.add_mul_div_right _ _ (by omega),
      Nat.add_mul_mod_self_right, Nat.div_eq_of_lt hCol, Nat.mod_eq_of_lt hCol]
    simp
  · rintro ⟨hRow, hCol⟩
    rw [hRow, hCol]
    exact Nat.div_add_mod' k m.sizeCols

theorem posOf_lt {a b : C} (hCol : m.colOf a < m.sizeCols)
    (hLess : Before (m.place a) (m.place b)) : m.posOf a < m.posOf b := by
  have hSnd : (m.place a).2 = m.colOf a := rfl
  unfold posOf
  rcases hLess with hRow | ⟨hRow, hLess⟩
  · have hMul : ((m.place a).1 + 1) * m.sizeCols ≤ (m.place b).1 * m.sizeCols :=
      Nat.mul_le_mul_right _ hRow
    rw [Nat.add_mul] at hMul
    omega
  · rw [hRow]
    omega

variable [DecidableEq R] [DecidableEq C]

variable {rs : List R} {cs : R → List C}

section

variable (hShape : Shape m rs cs)

include hShape

section

variable (hBounded : Bounded m rs cs)

include hBounded

/- Whether the next cell is at the place with number `k`. -/
theorem refHere_spec {ref : Ref R C} {k : Nat}
    (hAt : At rs cs ref left) :
    m.refHere ⟨k / m.sizeCols, k % m.sizeCols, ref⟩ =
      some (left.head?.filter fun c => m.posOf c = k) := by
  unfold refHere
  rcases hAt with ⟨hCol, rfl⟩ | ⟨as, r, bs, ps, c, qs, hSplit, hRow, rfl, rfl⟩
  · simp [hCol]
  · have hr : r ∈ rs := by simp [hSplit]
    have hc : c ∈ cs r := by simp [hRow]
    have hIff := posOf_eq_iff (k := k) (hBounded.col_lt r hr c hc)
    unfold place rowOf colOf at hIff
    rw [hShape.parent r hr c hc, Prod.mk.injEq] at hIff
    simp only [Heap.read_of_mem ((hShape.cells r hr).live c hc),
      Heap.read_of_mem (hShape.rows.live r hr), bind_eq_bind, bind_some,
      cons_append, head?_cons, filter_some, hIff, decide_eq_true_eq]
    by_cases hCol : (m.cells.node c).idx = k % m.sizeCols
    · by_cases hRowIdx : (m.rows.node r).idx = k / m.sizeCols
      · simp [hCol, hRowIdx]
      · simp [hCol, hRowIdx]
    · simp [hCol]

/- The complete iterator from the place with number `k` on. -/
theorem iterateCompleteFrom_spec {ref : Ref R C} {k n fuel : Nat}
    (hAt : At rs cs ref left) (hCols : 0 < m.sizeCols)
    (hLeft : k + n = m.sizeRows * m.sizeCols) (hFuel : n < fuel) :
    m.iterateCompleteFrom fuel ⟨k / m.sizeCols, k % m.sizeCols, ref⟩ = some (m.fill left k n) := by
  induction n generalizing ref left k fuel with
  | zero =>
    cases fuel with
    | zero => omega
    | succ fuel =>
      have hEnd : k / m.sizeCols = m.sizeRows := by
        rw [show k = m.sizeRows * m.sizeCols by omega, Nat.mul_div_cancel _ hCols]
      cases left <;> simp [iterateCompleteFrom, iteratorCompleteNext, hEnd, fill]
  | succ n ih =>
    cases fuel with
    | zero => omega
    | succ fuel =>
      have hInside : ¬ m.sizeRows ≤ k / m.sizeCols := by
        rw [Nat.not_le, Nat.div_lt_iff_lt_mul hCols]
        omega
      -- The next place.
      have hStep : ∀ ref' : Ref R C,
          (if k % m.sizeCols + 1 = m.sizeCols then
            (⟨k / m.sizeCols + 1, 0, ref'⟩ : IteratorComplete R C)
          else
            ⟨k / m.sizeCols, k % m.sizeCols + 1, ref'⟩) =
          ⟨(k + 1) / m.sizeCols, (k + 1) % m.sizeCols, ref'⟩ := by
        intro ref'
        have hMod := Nat.mod_lt k hCols
        have hDiv := Nat.div_add_mod k m.sizeCols
        split
        · rename_i hEnd
          have hSucc : k + 1 = m.sizeCols * (k / m.sizeCols + 1) := by
            rw [Nat.mul_add]
            omega
          rw [hSucc, Nat.mul_div_cancel_left _ hCols, Nat.mul_mod_right]
        · rename_i hEnd
          have hSucc : k + 1 = k % m.sizeCols + 1 + m.sizeCols * (k / m.sizeCols) := by
            omega
          have hLess : k % m.sizeCols + 1 < m.sizeCols := by
            omega
          rw [show (k + 1) / m.sizeCols = k / m.sizeCols by
              rw [hSucc, Nat.add_mul_div_left _ _ hCols, Nat.div_eq_of_lt hLess, Nat.zero_add],
            show (k + 1) % m.sizeCols = k % m.sizeCols + 1 by
              rw [hSucc, Nat.add_mul_mod_self_left, Nat.mod_eq_of_lt hLess]]
      have hHere := refHere_spec (k := k) hShape hBounded hAt
      have hNextOf : ∀ (ref' : Ref R C) (entry : Entry C),
          (if k % m.sizeCols + 1 = m.sizeCols then
            some ((⟨k / m.sizeCols + 1, 0, ref'⟩ :
              IteratorComplete R C), some entry)
          else
            some (⟨k / m.sizeCols, k % m.sizeCols + 1,
              ref'⟩, some entry)) =
          some (⟨(k + 1) / m.sizeCols, (k + 1) % m.sizeCols, ref'⟩, some entry) := by
        intro ref' entry
        rw [← hStep ref']
        split <;> rfl
      have hDummy : left.head?.filter
          (fun c => m.posOf c = k) = none →
          m.fill left k (n + 1) =
            .dummy (k / m.sizeCols) (k % m.sizeCols) :: m.fill left (k + 1) n := by
        intro hNone
        cases left with
        | nil => rfl
        | cons c left =>
          have hOther : m.posOf c ≠ k := by
            simpa [filter_some] using hNone
          simp [fill, hOther]
      cases hFound : left.head?.filter (fun c => decide (m.posOf c = k)) with
      | none =>
        have hRest := ih hAt (k := k + 1) (by omega) (show n < fuel by omega)
        rw [hDummy hFound]
        simp only [iterateCompleteFrom, iteratorCompleteNext,
          if_neg hInside, hHere, hFound, hNextOf, hRest, bind_eq_bind, bind_some]
      | some c =>
        rcases left with - | ⟨d, left⟩
        · simp at hFound
        rw [head?_cons, filter_some] at hFound
        split at hFound
        swap
        · simp at hFound
        rename_i hPos
        obtain rfl : d = c := by simpa using hFound
        rw [decide_eq_true_eq] at hPos
        rcases refNext_spec hShape hAt with ⟨-, ref', hNext, hAt'⟩
        have hRest := ih hAt' (k := k + 1) (by omega) (show n < fuel by omega)
        simp only [iterateCompleteFrom, iteratorCompleteNext,
          if_neg hInside, hHere, head?_cons, filter_some, hPos,
          decide_true, if_true, hNext, hNextOf, hRest, bind_eq_bind, bind_some, fill]

/- All that the complete iterator yields. -/
theorem iterateComplete_spec
    (hCols : 0 < m.sizeCols) :
    m.iterateComplete = some (m.fill (cellsUpTo cs rs) 0 (m.sizeRows * m.sizeCols)) := by
  rcases iteratorNew_spec hShape with ⟨ref, hNew, hAt⟩
  have hRun := iterateCompleteFrom_spec (k := 0)
    (n := m.sizeRows * m.sizeCols) hShape hBounded hAt hCols (by omega) (Nat.lt_succ_self _)
  rw [Nat.zero_div, Nat.zero_mod] at hRun
  unfold iterateComplete
  simp only [hNew, bind_eq_bind, bind_some]
  exact hRun

omit [DecidableEq R] [DecidableEq C] in
/- The entries are right when no cell is left out. -/
theorem complete_fill_iff
    (hCols : 0 < m.sizeCols) :
    Complete m (m.fill (cellsUpTo cs rs) 0 (m.sizeRows * m.sizeCols)) ↔ NoGap m := by
  have hLive : ∀ c ∈ m.cells.live,
      m.rowOf (m.cells.node c).val.parent < m.sizeRows ∧ m.colOf c < m.sizeCols := by
    intro c hc
    rcases hShape.cells_live c hc with ⟨r, hr, hMem⟩
    rw [hShape.parent r hr c hMem]
    exact ⟨hBounded.row_lt r hr, hBounded.col_lt r hr c hMem⟩
  have hSub := cellsUpTo_sublist cs rs
  have hMem : ∀ c ∈ cellsUpTo cs rs, c ∈ m.cells.live :=
    fun c hc => (hShape.rowMajor.1 c).mp (hSub.mem hc)
  have hSorted : (cellsUpTo cs rs).Pairwise fun a b => m.posOf a < m.posOf b := by
    refine (hShape.rowMajor.2.sublist hSub).imp_of_mem ?_
    intro a b ha _ hLess
    exact posOf_lt (hLive a (hMem a ha)).2 hLess
  have hPlace : ∀ row col, col < m.sizeCols →
      ∀ c ∈ m.cells.live, m.place c = (row, col) ↔ m.posOf c = row * m.sizeCols + col := by
    intro row col hCol c hc
    rw [posOf_eq_iff (hLive c hc).2, Nat.add_comm,
      Nat.add_mul_div_right _ _ hCols, Nat.add_mul_mod_self_right,
      Nat.div_eq_of_lt hCol, Nat.mod_eq_of_lt hCol, Nat.zero_add]
  rw [hShape.noGap_iff]
  constructor
  · rintro ⟨-, hEntries⟩ c hc
    rcases hLive c hc with ⟨hRow, hCol⟩
    have hPos : m.posOf c = (m.place c).1 * m.sizeCols + (m.place c).2 := rfl
    have hLess : m.posOf c < m.sizeRows * m.sizeCols := by
      have hMul : ((m.place c).1 + 1) * m.sizeCols ≤ m.sizeRows * m.sizeCols :=
        Nat.mul_le_mul_right _ hRow
      rw [Nat.add_mul] at hMul
      have hSnd : (m.place c).2 < m.sizeCols := hCol
      omega
    -- The entry at the place of this cell.
    have hLength := length_fill m (cellsUpTo cs rs) 0 (m.sizeRows * m.sizeCols)
    obtain ⟨entry, hEntry⟩ : ∃ entry, (m.fill (cellsUpTo cs rs) 0
      (m.sizeRows * m.sizeCols))[m.posOf c]? = some entry :=
      ⟨_, getElem?_eq_getElem (by rwa [hLength])⟩
    have hCell := (hEntries _ hRow _ hCol entry hEntry).1 c hc rfl
    have hFill := fill_spec hSorted (by simp) hEntry
    by_contra hOut
    by_cases hOther : ∃ d ∈ cellsUpTo cs rs, m.posOf d = 0 + m.posOf c
    · rcases hOther with ⟨d, hd, hSame⟩
      have hEq := (hFill.1 d hd hSame).symm.trans hCell
      rw [Entry.cell.injEq] at hEq
      exact hOut (hEq ▸ hd)
    · have hDummy := hFill.2 (fun d hd hSame => hOther ⟨d, hd, hSame⟩)
      rw [hCell] at hDummy
      simp at hDummy
  · intro hAll
    refine ⟨length_fill _ _ _ _, ?_⟩
    intro row _ col hCol entry hEntry
    have hFill := fill_spec hSorted (by simp) hEntry
    rw [Nat.zero_add] at hFill
    refine ⟨?_, ?_⟩
    · intro c hc hHere
      exact hFill.1 c (hAll c hc) ((hPlace row col hCol c hc).mp hHere)
    · intro hNone
      have hDummy := hFill.2 (fun c hc hSame =>
        hNone c (hMem c hc) ((hPlace row col hCol c (hMem c hc)).mpr hSame))
      rwa [Nat.add_comm, Nat.add_mul_div_right _ _ hCols,
        Nat.add_mul_mod_self_right, Nat.div_eq_of_lt hCol,
        Nat.mod_eq_of_lt hCol, Nat.zero_add] at hDummy

end

end

---
-- Reachable Matrices
---

/- The size stays positive. -/
theorem step_positive {s s' : Matrixsparse R C D × Table D}
    {op : Op R C D} (hStep : step s op = some s')
    (hSize : 0 < s.2.rows ∧ 0 < s.2.cols) : 0 < s'.2.rows ∧ 0 < s'.2.cols := by
  unfold step at hStep
  rw [Option.bind_eq_bind, Option.bind_eq_some_iff] at hStep
  rcases hStep with ⟨⟨m, result⟩, -, hStep⟩
  dsimp only at hStep
  split at hStep
  · rename_i hAllows
    obtain rfl := Option.some.inj hStep
    dsimp only
    split
    · rename_i hResult
      cases op with
      | sizeSet rows cols =>
        have hDecide : result = decide (0 < rows ∧ 0 < cols) := hAllows
        rw [hResult] at hDecide
        exact of_decide_eq_true hDecide.symm
      | _ => exact hSize
    · exact hSize
  · simp at hStep

/-
  In every reachable matrix both iterators come to an end,
  the complete one after all places, and either of them is
  right exactly when no row without cells is before one with
  cells.
-/
theorem iterators_correct {rows cols : Nat} {row : R → Node R (Ends C)}
    {cell : C → Node C (Cell R D)} {m : Matrixsparse R C D}
    (ops : List (Op R C D)) (hNew : new rows cols row cell = some m)
    (hGuarded : Runs.Guarded step (fun s op => op.Fresh s.1 ∧
    op.Resizes s.1) (m, ⟨rows, cols, fun _ _ => none⟩) ops) :
    ∃ m' t' cells entries,
      Runs.run step (m, ⟨rows, cols, fun _ _ => none⟩) ops =
        some (m', t') ∧
      m'.iterate = some cells ∧
      m'.iterateComplete = some entries ∧
      entries.length = m'.sizeRows * m'.sizeCols ∧
      (RowMajor m' cells ↔ NoGap m') ∧
      (Complete m' entries ↔ NoGap m') := by
  have hSize : 0 < rows ∧ 0 < cols := by
    unfold new at hNew
    split at hNew
    · assumption
    · simp at hNew
  rcases Runs.run_of_guarded (fun s => Holds s ∧ 0 < s.2.rows ∧
      0 < s.2.cols) (fun s op hInv hOk => by
        rcases step_correct op hInv.1 hOk.1 hOk.2 with
          ⟨s', hStep, hHolds⟩
        exact ⟨s', hStep, hHolds, step_positive hStep hInv.2⟩)
      ⟨new_holds hNew, hSize⟩ hGuarded with
    ⟨⟨m', t'⟩, hRun, ⟨⟨rs, cs, hRep⟩, -, hCols⟩, -, hPos⟩
  rw [← hCols] at hPos
  exact ⟨m', t', _, _, hRun, iterate_spec hRep.shape,
    iterateComplete_spec hRep.shape hRep.bounded hPos,
    length_fill _ _ _ _, hRep.shape.rowMajor_iff,
    complete_fill_iff hRep.shape hRep.bounded hPos⟩

/- A matrix with one cell. -/
theorem iterators_correct_sample :
    ∃ m' t' cells entries,
      Runs.run step (sampleMatrix, sampleTable) [sampleSet] =
        some (m', t') ∧
      m'.iterate = some cells ∧
      m'.iterateComplete = some entries ∧
      entries.length = m'.sizeRows * m'.sizeCols ∧
      (RowMajor m' cells ↔ NoGap m') ∧
      (Complete m' entries ↔ NoGap m') := by
  refine iterators_correct (m := sampleMatrix) _ rfl
    ⟨⟨⟨?_, ?_⟩, trivial⟩, fun _ _ => trivial⟩
  · intro r _
    exact Finset.notMem_empty r
  · intro c _
    exact Finset.notMem_empty c

/-
  With cells at `(0, 0)` and `(1, 5)`, of which the first one
  is cleared, both iterators miss the second one.
-/
theorem iterators_stop :
    let ops := [sampleSet, sampleSetNext, .cellIdxClear 0 0]
    let run := Runs.run step (sampleMatrix, sampleTable) ops
    Runs.Guarded step (fun s op => op.Fresh s.1)
        (sampleMatrix, sampleTable) ops ∧
      (run.map fun s => decide (1 ∈ s.1.cells.live)) =
        some true ∧
      (run.map fun s => s.1.place 1) = some (1, 5) ∧
      (run.bind fun s => s.1.iterate) = some [] ∧
      ((run.bind fun s => s.1.iterateComplete).bind
        fun entries => entries[15]?) = some (.dummy 1 5) := by
  refine ⟨sample_fresh fun _ => ⟨trivial, fun _ _ => trivial⟩,
    by decide, by decide, by decide, by decide +kernel⟩

end Efl.Eina.Matrixsparse
