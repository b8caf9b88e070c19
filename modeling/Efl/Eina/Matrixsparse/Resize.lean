import Efl.Eina.Matrixsparse.Operations

/-
  `eina_matrixsparse_size_set`.

  Rows are freed at the end of the list, then cells at the end
  of each row, and with them the rows that have no other
  cells.  `last_used` is repaired for the rows behind the new
  size only.

  Main declarations:
    * `Matrixsparse.KeepsCell`
    * `Matrixsparse.UsedKept`
    * `Matrixsparse.cutRows_spec`
    * `Matrixsparse.cutRow_spec`
-/

---
-- The End of a List
---

namespace Efl.Eina.Matrixsparse

open List Option

section

variable {N α : Type} [DecidableEq N]

omit [DecidableEq N] in
/- The nodes below a bound are the first ones. -/
theorem Indexed.cut {h : Nodes N α} {e : Ends N} {ns : List N}
    (bound : Nat) (hIndexed : Indexed h e ns) :
    ∃ as bs, ns = as ++ bs ∧
      (∀ n ∈ as, (h.node n).idx < bound) ∧ ∀ n ∈ bs, bound ≤ (h.node n).idx := by
  have hAscending := hIndexed.ascending
  clear hIndexed
  induction ns with
  | nil => exact ⟨[], [], rfl, by simp, by simp⟩
  | cons n ns ih =>
    rw [pairwise_cons] at hAscending
    by_cases hLess : (h.node n).idx < bound
    · rcases ih hAscending.2 with ⟨as, bs, rfl, hAs, hBs⟩
      refine ⟨n :: as, bs, rfl, ?_, hBs⟩
      intro m hm
      rcases mem_cons.mp hm with rfl | hm
      · exact hLess
      · exact hAs m hm
    · refine ⟨[], n :: ns, rfl, by simp, ?_⟩
      intro m hm
      rcases mem_cons.mp hm with rfl | hm
      · omega
      · have hFar := hAscending.1 m hm
        omega

/- The list up to a node, with these pointers to its ends. -/
theorem Indexed.take {h h' : Nodes N α} {e e' : Ends N} {as bs : List N}
    (hIndexed : Indexed h e (as ++ bs)) (hLive : ∀ n ∈ as, n ∈ h'.live)
    (hNext : ∀ n ∈ as, (h'.node n).next =
      if some n = as.getLast? then none else (h.node n).next)
    (hPrev : ∀ n ∈ as, (h'.node n).prev = (h.node n).prev)
    (hIdx : ∀ n ∈ as, (h'.node n).idx = (h.node n).idx)
    (hFirst : e'.first = as.head?) (hLast : e'.last = as.getLast?)
    (hUsed : ∀ n, e'.lastUsed = some n → n ∈ as) : Indexed h' e' as := by
  refine ⟨hIndexed.linked.take hNext hPrev, hLive, ?_, hFirst, hLast, hUsed⟩
  have hAscending := (pairwise_append.mp hIndexed.ascending).1
  refine hAscending.imp_of_mem ?_
  intro a b ha hb hLess
  rwa [hIdx a ha, hIdx b hb]

end

variable {R C D : Type} [DecidableEq R] [DecidableEq C]

variable {cols fuel : Nat}

omit [DecidableEq R] in
/- The cells behind the new size are freed. -/
theorem dropCells_spec {m : Matrixsparse R C D} {as bs : List C}
    (hPrev : ∀ ps c qs, as ++ bs = ps ++ c :: qs →
      (m.cells.node c).prev = ps.getLast?) (hNodup : (as ++ bs).Nodup)
    (hLive : ∀ c ∈ as ++ bs, c ∈ m.cells.live)
    (hAs : ∀ c ∈ as, m.colOf c < cols) (hBs : ∀ c ∈ bs, cols ≤ m.colOf c)
    (hFuel : (as ++ bs).length ≤ fuel) :
    ∃ live, dropCells cols fuel m (as ++ bs).getLast? =
        some ({ m with cells := { m.cells with live := live } },
          as.getLast?) ∧
      ∀ c, c ∈ live ↔ c ∈ m.cells.live ∧ c ∉ bs := by
  induction bs using List.reverseRecOn generalizing m fuel with
  | nil =>
    refine ⟨m.cells.live, ?_, by simp⟩
    rw [append_nil] at *
    rcases eq_nil_or_concat as with rfl | ⟨as, a, rfl⟩
    · cases fuel <;> rfl
    · rw [concat_eq_append] at *
      cases fuel with
      | zero => simp at hFuel
      | succ fuel =>
        have hLess := hAs a (by simp)
        unfold colOf at hLess
        simp only [getLast?_concat, dropCells,
          Heap.read_of_mem (hLive a (by simp)), bind_eq_bind, bind_some,
          Nat.not_le.mpr hLess, if_false]
  | append_singleton bs c ih =>
    rw [← append_assoc] at *
    cases fuel with
    | zero => simp at hFuel
    | succ fuel =>
      have hcLive := hLive c (by simp)
      have hBehind := hBs c (by simp)
      unfold colOf at hBehind
      have hcPrev := hPrev (as ++ bs) c [] rfl
      rw [nodup_append] at hNodup
      have hne : ∀ d ∈ as ++ bs, d ≠ c := fun d hd => hNodup.2.2 d hd c (by simp)
      have hFree : m.cellFree c = some { m with cells :=
            { m.cells with live := m.cells.live.erase c } } := by
        unfold cellFree
        rw [Heap.free_of_mem hcLive]
        rfl
      rcases ih (m := { m with cells :=
          { m.cells with live := m.cells.live.erase c } })
          (by
            intro ps d qs hSplit
            exact hPrev ps d (qs ++ [c]) (by rw [hSplit]; simp)) hNodup.1
          (by
            intro d hd
            exact Finset.mem_erase.mpr ⟨hne d hd, hLive d (mem_append_left _ hd)⟩)
          hAs (fun d hd => hBs d (by simp [hd]))
          (show (as ++ bs).length ≤ fuel by
            simp only [length_append, length_singleton] at hFuel ⊢
            omega) with ⟨live, hDrop, hIff⟩
      refine ⟨live, ?_, ?_⟩
      · simp only [getLast?_concat, dropCells, Heap.read_of_mem hcLive, bind_eq_bind,
          bind_some, if_pos hBehind, hFree, hcPrev]
        exact hDrop
      · intro d
        rw [hIff]
        simp only [Finset.mem_erase, mem_append, mem_singleton]
        tauto

variable {as bs : List R} {rows : Nat}

/- The rows behind the new size are freed. -/
theorem dropRows_spec {m : Matrixsparse R C D} {cs : R → List C}
    (hPrev : ∀ ps r qs, as ++ bs = ps ++ r :: qs →
      (m.rows.node r).prev = ps.getLast?) (hNodup : (as ++ bs).Nodup)
    (hLive : ∀ r ∈ as ++ bs, r ∈ m.rows.live)
    (hCells : ∀ r ∈ bs, Indexed m.cells (m.rows.node r).val (cs r))
    (hApart : ∀ r ∈ bs, ∀ r' ∈ bs, ∀ c ∈ cs r, c ∈ cs r' → r = r')
    (hAs : ∀ r ∈ as, m.rowOf r < rows) (hBs : ∀ r ∈ bs, rows ≤ m.rowOf r)
    (hFuel : (as ++ bs).length ≤ fuel) :
    ∃ rowsLive cellsLive,
      dropRows rows fuel m (as ++ bs).getLast? =
        some ({ m with
          rows := { m.rows with live := rowsLive }
          cells := { m.cells with live := cellsLive } },
          as.getLast?) ∧
      (∀ r, r ∈ rowsLive ↔ r ∈ m.rows.live ∧ r ∉ bs) ∧
      ∀ c, c ∈ cellsLive ↔ c ∈ m.cells.live ∧ ∀ r ∈ bs, c ∉ cs r := by
  induction bs using List.reverseRecOn generalizing m fuel with
  | nil =>
    refine ⟨m.rows.live, m.cells.live, ?_, by simp, by simp⟩
    rw [append_nil] at *
    rcases eq_nil_or_concat as with rfl | ⟨as, a, rfl⟩
    · cases fuel <;> rfl
    · rw [concat_eq_append] at *
      cases fuel with
      | zero => simp at hFuel
      | succ fuel =>
        have hLess := hAs a (by simp)
        unfold rowOf at hLess
        simp only [getLast?_concat, dropRows,
          Heap.read_of_mem (hLive a (by simp)), bind_eq_bind, bind_some,
          Nat.not_le.mpr hLess, if_false]
  | append_singleton bs r ih =>
    rw [← append_assoc] at *
    cases fuel with
    | zero => simp at hFuel
    | succ fuel =>
      have hrLive := hLive r (by simp)
      have hBehind := hBs r (by simp)
      unfold rowOf at hBehind
      have hrPrev := hPrev (as ++ bs) r [] rfl
      rw [nodup_append] at hNodup
      have hne : ∀ r' ∈ as ++ bs, r' ≠ r := fun r' hr' => hNodup.2.2 r' hr' r (by simp)
      have hOut : ∀ r' ∈ bs, ∀ c ∈ cs r', c ∉ cs r := by
        intro r' hr' c hc hc'
        exact hne r' (by simp [hr']) (hApart r' (by simp [hr']) r (by simp) c hc hc')
      rcases rowFree_spec hrLive (hCells r (by simp)) with ⟨live, hFree, hIff⟩
      rcases ih (m := { m with
            rows := { m.rows with live := m.rows.live.erase r }
            cells := { m.cells with live := live } })
          (by
            intro ps r' qs hSplit
            exact hPrev ps r' (qs ++ [r]) (by rw [hSplit]; simp)) hNodup.1
          (by
            intro r' hr'
            exact Finset.mem_erase.mpr ⟨hne r' hr', hLive r' (mem_append_left _ hr')⟩)
          (by
            intro r' hr'
            have hRow := hCells r' (by simp [hr'])
            refine hRow.congr (fun _ _ => ⟨rfl, rfl, rfl⟩) ?_
            intro c hc
            exact (hIff c).mpr ⟨hRow.live c hc, hOut r' hr' c hc⟩)
          (by
            intro r₁ hr₁ r₂ hr₂
            exact hApart r₁ (by simp [hr₁]) r₂ (by simp [hr₂]))
          hAs (fun r' hr' => hBs r' (by simp [hr']))
          (show (as ++ bs).length ≤ fuel by
            simp only [length_append, length_singleton] at hFuel ⊢
            omega) with ⟨rowsLive, cellsLive, hDrop, hRowsIff, hCellsIff⟩
      refine ⟨rowsLive, cellsLive, ?_, ?_, ?_⟩
      · simp only [getLast?_concat, dropRows, Heap.read_of_mem hrLive,
          bind_eq_bind, bind_some, if_pos hBehind, hFree, hrPrev]
        exact hDrop
      · intro r'
        rw [hRowsIff]
        simp only [Finset.mem_erase, mem_append, mem_singleton]
        tauto
      · intro c
        rw [hCellsIff]
        dsimp only
        rw [hIff]
        simp only [mem_append, mem_singleton]
        constructor
        · rintro ⟨⟨hc, hr⟩, hRest⟩
          refine ⟨hc, ?_⟩
          rintro r' (hr' | rfl)
          · exact hRest r' hr'
          · exact hr
        · rintro ⟨hc, hAll⟩
          exact ⟨⟨hc, hAll r (Or.inr rfl)⟩, fun r' hr' => hAll r' (Or.inl hr')⟩

/- The matrix with another row that was used last. -/
def withUsed (m : Matrixsparse R C D) (used : Option R) : Matrixsparse R C D :=
  { m with ends := { m.ends with lastUsed := used } }

/-
  The first loop, with the new end of the list of rows.  Only
  `last_used` may still point behind it.
-/
theorem cutRows_spec {m : Matrixsparse R C D} {cs : R → List C}
    (hShape : Shape m (as ++ bs) cs) (hAs : ∀ r ∈ as, m.rowOf r < rows)
    (hBs : ∀ r ∈ bs, rows ≤ m.rowOf r) :
    ∃ m₁ m₂, dropRows rows m.rows.live.card m m.ends.last =
        some (m₁, as.getLast?) ∧
      m₁.cutRows as.getLast? = some m₂ ∧
      (∀ used, (∀ r, used = some r → r ∈ as) →
        Shape (m₂.withUsed used) as cs) ∧
      m₂.ends.lastUsed = m.ends.lastUsed ∧ m₂.ends.last = as.getLast? ∧ SameNodes m m₂ := by
  have hRows := hShape.rows
  have hNodup := hRows.linked.nodup
  rcases dropRows_spec (fun ps r qs hSplit =>
        (hSplit ▸ hRows.linked).prev_eq) hNodup hRows.live
      (fun r hr => hShape.cells r (by simp [hr])) (fun r hr r' hr' c hc hc' => hShape.row_unique
        (by simp [hr]) hc (by simp [hr']) hc') hAs hBs (Heap.length_le_card hNodup hRows.live) with
    ⟨rowsLive, cellsLive, hDrop, hRowsIff, hCellsIff⟩
  rw [← hRows.last_eq] at hDrop
  rw [nodup_append] at hNodup
  have hKept : ∀ r ∈ as, r ∈ rowsLive := by
    intro r hr
    refine (hRowsIff r).mpr ⟨hRows.live r (by simp [hr]), ?_⟩
    intro hr'
    exact hNodup.2.2 r hr r hr' rfl
  -- Any matrix with these links has the shape.
  have hDone : ∀ (h' : Nodes R (Ends C)) (e' : Ends R),
      h'.live = rowsLive →
      (∀ r ∈ as, h'.node r =
        { m.rows.node r with
          next := if some r = as.getLast? then none
            else (m.rows.node r).next }) →
      e'.first = as.head? → e'.last = as.getLast? →
      ∀ used, (∀ r, used = some r → r ∈ as) →
      Shape
        { m with
          ends := { e' with lastUsed := used }
          rows := h'
          cells := { m.cells with live := cellsLive } } as cs := by
    intro h' e' hLive hNode hFirst hLast used hUsed
    refine ⟨?_, ?_, ?_, ?_, ?_⟩
    · refine hRows.take ?_ ?_ ?_ ?_ hFirst hLast hUsed
      · intro r hr
        rw [hLive]
        exact hKept r hr
      · intro r hr
        rw [hNode r hr]
      · intro r hr
        rw [hNode r hr]
      · intro r hr
        rw [hNode r hr]
    · intro r hr
      dsimp only at hr
      rw [hLive, hRowsIff] at hr
      exact (mem_append.mp (hShape.rows_live r hr.1)).resolve_right hr.2
    · intro r hr
      have hRow := hShape.cells r (by simp [hr])
      dsimp only
      rw [hNode r hr]
      refine hRow.congr (fun _ _ => ⟨rfl, rfl, rfl⟩) ?_
      intro c hc
      refine (hCellsIff c).mpr ⟨hRow.live c hc, ?_⟩
      intro r' hr' hc'
      exact hNodup.2.2 r hr r' hr' (hShape.row_unique (by simp [hr]) hc (by simp [hr']) hc')
    · intro r hr
      exact hShape.parent r (by simp [hr])
    · intro c hc
      rcases (hCellsIff c).mp hc with ⟨hc, hOut⟩
      rcases hShape.cells_live c hc with ⟨r, hr, hMem⟩
      refine ⟨r, ?_, hMem⟩
      refine (mem_append.mp hr).resolve_right ?_
      exact fun h => hOut r h hMem
  rcases eq_nil_or_concat as with rfl | ⟨as, a, rfl⟩
  · refine ⟨_, _, hDrop, rfl, ?_, rfl, rfl, ⟨rfl, fun _ => rfl, rfl, rfl⟩⟩
    exact hDone { m.rows with live := rowsLive } ⟨none, none, none⟩ rfl (by simp) rfl rfl
  · rw [concat_eq_append] at *
    have ha : a ∈ as ++ [a] := by simp
    have hLast : (as ++ [a]).getLast? = some a := by simp
    have hFirst : m.ends.first = (as ++ [a]).head? := by
      rw [hRows.first_eq]
      cases as <;> simp
    rw [hLast] at hDrop
    rw [hLast]
    by_cases hEnd : some a = m.ends.last
    · -- Nothing was freed.
      have hNone : bs = [] := by
        rcases eq_nil_or_concat bs with rfl | ⟨bs, b, rfl⟩
        · rfl
        · rw [hRows.last_eq, concat_eq_append, ← append_assoc, getLast?_concat] at hEnd
          have hSame := some.inj hEnd
          exact (hNodup.2.2 a ha b (by simp) hSame).elim
      subst hNone
      have hNext : (m.rows.node a).next = none := by
        have hLinked := hRows.linked
        rw [append_nil] at hLinked
        exact hLinked.next_eq
      refine ⟨_, { m with
          rows := { m.rows with live := rowsLive }
          cells := { m.cells with live := cellsLive } },
        hDrop, ?_, ?_, rfl, hEnd.symm, ⟨rfl, fun _ => rfl, rfl, rfl⟩⟩
      · unfold cutRows
        simp [hEnd]
      · refine hDone { m.rows with live := rowsLive } m.ends rfl ?_ hFirst (by rw [hLast, hEnd])
        intro r hr
        rw [hLast]
        by_cases hSame : r = a
        · subst hSame
          simp [← hNext]
        · simp [hSame]
    · refine ⟨_, { m with
          ends := { m.ends with last := some a }
          rows := ({ m.rows with live := rowsLive } :
            Nodes R (Ends C)).set a { m.rows.node a with next := none }
          cells := { m.cells with live := cellsLive } },
        hDrop, ?_, ?_, rfl, rfl, ⟨rfl, ?_, rfl, rfl⟩⟩
      · unfold cutRows
        simp only [ne_eq, hEnd, not_false_eq_true, if_true]
        rw [Heap.modify_of_mem _ (by exact hKept a ha)]
        rfl
      · refine hDone (({ m.rows with live := rowsLive } :
            Nodes R (Ends C)).set a { m.rows.node a with next := none })
          { m.ends with last := some a } rfl ?_ hFirst (by rw [hLast])
        intro r hr
        rw [hLast]
        by_cases hSame : r = a
        · subst hSame
          simp
        · simp [hSame]
      · intro r
        unfold rowOf
        by_cases hSame : r = a
        · subst hSame
          simp
        · simp [hSame]

---
-- One Row
---

/- The list of rows without the row that is freed then. -/
theorem passBy_spec {N α : Type} [DecidableEq N] {h : Nodes N α}
    {e : Ends N} {as bs : List N} {n : N} (hIndexed :
      Indexed h { e with lastUsed := none } (as ++ n :: bs)) :
    ∃ h' e', passBy h e n = some (h', e') ∧
      h'.live = h.live ∧ LinksRest h h' as bs n ∧
      h'.node n = h.node n ∧
      e'.first = (as ++ bs).head? ∧ e'.last = (as ++ bs).getLast? ∧ e'.lastUsed = e.lastUsed := by
  have hNodup := hIndexed.linked.nodup
  rw [perm_middle.nodup_iff, nodup_cons] at hNodup
  rcases hNodup with ⟨hOut, hNodup⟩
  have hNext : (h.node n).next = bs.head? := hIndexed.linked.next_eq
  have hPrev : (h.node n).prev = as.getLast? := hIndexed.linked.prev_eq
  have hFirst : e.first = (as ++ n :: bs).head? := hIndexed.first_eq
  have hLast : e.last = (as ++ n :: bs).getLast? := hIndexed.last_eq
  have hPass : passBy h e n =
      some (relinked h as.getLast? bs.head?,
        { e with
          first := if as.getLast? = none then bs.head?
            else e.first
          last := if bs.head? = none then as.getLast?
            else e.last }) := by
    unfold passBy
    simp only [Heap.read_of_mem (hIndexed.live n (by simp)), bind_eq_bind, bind_some, hNext, hPrev]
    cases hq : bs.head? with
    | none =>
      cases hp : as.getLast? with
      | none => rfl
      | some a =>
        have ha := mem_of_getLast? hp
        simp only [Heap.modify_of_mem _ (hIndexed.live a (by simp [ha])), bind_some]
        rfl
    | some b =>
      have hb := mem_of_head? hq
      have hbLive := hIndexed.live b (by simp [hb])
      cases hp : as.getLast? with
      | none =>
        simp only [Heap.modify_of_mem _ hbLive, bind_some]
        rfl
      | some a =>
        have ha := mem_of_getLast? hp
        have haLive := hIndexed.live a (by simp [ha])
        simp only [Heap.modify_of_mem _ hbLive, bind_some]
        rw [Heap.modify_of_mem _ (by simpa using haLive)]
        rfl
  refine ⟨_, _, hPass, live_relinked _ _ _,
    relinked_rest h n hNodup, relinked_node h hOut, ?_, ?_, rfl⟩
  · dsimp only
    rw [hFirst]
    rcases eq_nil_or_concat as with rfl | ⟨as, a, rfl⟩
    · simp
    · cases as <;> simp
  · dsimp only
    rw [hLast]
    cases bs with
    | nil => simp
    | cons b bs => simp

variable {r : R}

/- A row of which no cell is left. -/
theorem dropRow_spec {m : Matrixsparse R C D} {cs : R → List C} {live : Finset C} (update : Bool)
    (hShape : Shape (m.withUsed none) (as ++ r :: bs) cs)
    (hLive : ∀ c, c ∈ live ↔ c ∈ m.cells.live ∧ c ∉ cs r) :
    ∃ m', ({ m with cells :=
        { m.cells with live := live } } :
          Matrixsparse R C D).dropRow update r = some m' ∧
      Shape (m'.withUsed none) (as ++ bs) cs ∧
      (∀ r' ∈ as ++ bs, m'.rowOf r' = m.rowOf r') ∧
      m'.cells.node = m.cells.node ∧
      m'.ends.lastUsed =
        (if update ∧ m.ends.lastUsed = some r then bs.head?
          else m.ends.lastUsed) ∧
      m'.sizeRows = m.sizeRows ∧ m'.sizeCols = m.sizeCols := by
  have hrLive : r ∈ m.rows.live := hShape.rows.live r (by simp)
  have hNodup := hShape.rows.linked.nodup
  rw [perm_middle.nodup_iff, nodup_cons] at hNodup
  have hne : ∀ r' ∈ as ++ bs, r' ≠ r := by
    rintro r' hr' rfl
    exact hNodup.1 hr'
  have hNext : (m.rows.node r).next = bs.head? := hShape.rows.linked.next_eq
  -- The row without its cells.
  let x := m.rows.node r
  let rows := m.rows.set r { x with val := { x.val with first := none, last := none } }
  have hLinks : ∀ r', (rows.node r').next =
        (m.rows.node r').next ∧
      (rows.node r').prev = (m.rows.node r').prev ∧ (rows.node r').idx = (m.rows.node r').idx := by
    intro r'
    by_cases hSame : r' = r
    · subst hSame
      simp [rows, x]
    · simp [rows, hSame]
  have hRows : Indexed rows { m.ends with lastUsed := none } (as ++ r :: bs) :=
    hShape.rows.congr (fun r' _ => hLinks r') hShape.rows.live
  rcases passBy_spec hRows with ⟨h', e', hPass, hLive', hRest, hNode, hFirst, hLast, hUsed⟩
  have hOld : LinksRest m.rows h' as bs r := by
    intro r' hr'
    rw [hRest r' hr']
    simp [rows, hr']
  have hDone : Indexed { h' with live := h'.live.erase r }
      { e' with lastUsed := none } (as ++ bs) := by
    refine hShape.rows.remove ?_ hOld hFirst hLast (by simp)
    intro r' hr' hOther
    rw [Finset.mem_erase, hLive']
    exact ⟨hOther, hr'⟩
  have hFree : ({ m with
        ends := e'
        rows := h'
        cells := { m.cells with live := live } } :
          Matrixsparse R C D).rowFree r =
      some { m with
        ends := e'
        rows := { h' with live := h'.live.erase r }
        cells := { m.cells with live := live } } := by
    have hIn : r ∈ h'.live := by rwa [hLive']
    have hEmpty : (h'.node r).val.first = none := by
      rw [hNode]
      simp [rows]
    unfold rowFree
    simp only [Heap.read_of_mem hIn, bind_eq_bind, bind_some, hEmpty]
    rw [show ∀ n, rowCellsFree n ({ m with
        ends := e'
        rows := h'
        cells := { m.cells with live := live } } :
          Matrixsparse R C D) none = some _ from
      fun n => by cases n <;> rfl]
    simp only [bind_some, Heap.free_of_mem hIn]
  have hEnd := hShape.dropRow hDone (by
      intro r' hr'
      rw [Finset.mem_erase, hLive'] at hr'
      have hMem := hShape.rows_live r' hr'.2
      simpa [hr'.1] using hMem) hOld hLive
  unfold dropRow
  simp only [Heap.read_of_mem hrLive, bind_eq_bind, bind_some]
  rw [setEnds_eq _ (by exact hrLive)]
  simp only [bind_some]
  rw [show passBy _ m.ends r = some (h', e') from hPass]
  simp only [bind_some, hFree, hUsed, hNext]
  have hRow : ∀ r' ∈ as ++ bs, (h'.node r').idx = (m.rows.node r').idx := by
    intro r' hr'
    rw [hOld r' (hne r' hr')]
  split
  · exact ⟨_, rfl, hEnd, hRow, rfl, rfl, rfl, rfl⟩
  · exact ⟨_, rfl, hEnd, hRow, rfl, hUsed, rfl, rfl⟩

/- What `keepRow` returns. -/
theorem keepRow_eq {m : Matrixsparse R C D} {c : C} (update : Bool)
    (hRow : r ∈ m.rows.live) (hCell : c ∈ m.cells.live)
    (hNext : some c = (m.rows.node r).val.last →
      (m.cells.node c).next = none) :
    m.keepRow update r c = some
      { m with
        rows := m.rows.set r
          { m.rows.node r with
            val :=
              { (m.rows.node r).val with
                last := some c
                lastUsed := if update then some c
                  else (m.rows.node r).val.lastUsed } }
        cells := m.cells.set c { m.cells.node c with next := none } } := by
  unfold keepRow
  simp only [Heap.read_of_mem hRow, bind_eq_bind, bind_some]
  by_cases hLast : some c = (m.rows.node r).val.last
  · have hCells : m.cells.set c { m.cells.node c with next := none } = m.cells := by
      rw [← hNext hLast]
      exact Heap.set_eq_self _ _
    simp only [ne_eq, hLast, not_true_eq_false, if_false, hCells]
    cases update with
    | true =>
      simp only [if_true]
      rw [setEnds_eq _ hRow]
    | false =>
      simp only [Bool.false_eq_true, if_false]
      rw [Heap.set_eq_self]
  · simp only [ne_eq, hLast, not_false_eq_true, if_true, Heap.modify_of_mem _ hCell, bind_some]
    rw [setEnds_eq _ (by exact hRow)]
    simp only [bind_some]
    cases update with
    | true =>
      simp only [if_true]
      rw [setEnds_eq _ (by simpa using hRow)]
      simp [Heap.set]
    | false => simp

variable {rs : List R}

/- A row of which the cells `as` are left. -/
theorem keepRow_spec {m : Matrixsparse R C D} {cs : R → List C}
    {as bs : List C} {c : C} {live : Finset C} (update : Bool)
    (hShape : Shape (m.withUsed none) rs cs) (hMem : r ∈ rs)
    (hSplit : cs r = as ++ bs) (hEnd : as.getLast? = some c)
    (hLive : ∀ c', c' ∈ live ↔ c' ∈ m.cells.live ∧ c' ∉ bs)
    (hUsed : update = false →
      ∀ c', (m.rows.node r).val.lastUsed = some c' → c' ∈ as) :
    ∃ m', ({ m with cells :=
        { m.cells with live := live } } :
          Matrixsparse R C D).keepRow update r c = some m' ∧
      Shape (m'.withUsed none) rs (Function.update cs r as) ∧
      (∀ r', m'.rowOf r' = m.rowOf r') ∧
      (∀ c', m'.colOf c' = m.colOf c' ∧
        (m'.cells.node c').val = (m.cells.node c').val) ∧
      (∀ r', (m'.rows.node r').next = (m.rows.node r').next) ∧
      m'.ends = m.ends ∧ m'.sizeRows = m.sizeRows ∧ m'.sizeCols = m.sizeCols := by
  have hRow := hShape.cells r hMem
  rw [hSplit] at hRow
  have hNodup := hRow.linked.nodup
  rw [nodup_append] at hNodup
  have hc := mem_of_getLast? hEnd
  have hIn : ∀ c' ∈ as, c' ∈ live := by
    intro c' hc'
    refine (hLive c').mpr ⟨hRow.live c' (by simp [hc']), ?_⟩
    exact fun h => hNodup.2.2 c' hc' c' h rfl
  have hOther : ∀ r' ∈ rs, r' ≠ r → ∀ c' ∈ cs r', c' ∉ cs r :=
    fun r' hr' hne c' hc' h =>
      hne (hShape.row_unique hr' hc' hMem h)
  have hNext : some c = (m.rows.node r).val.last → (m.cells.node c).next = none := by
    intro hLast
    have hTotal : (as ++ bs).getLast? = some c := hRow.last_eq.symm.trans hLast.symm
    rcases eq_nil_or_concat (as ++ bs) with h | ⟨l, d, h⟩
    · simp [h] at hTotal
    · rw [concat_eq_append] at h
      have hLinked : DList.Linked _ _ (as ++ bs) := hRow.linked
      rw [h, getLast?_concat] at hTotal
      obtain rfl := some.inj hTotal
      rw [h] at hLinked
      exact hLinked.next_eq
  have hNode : ∀ c', ((m.cells.set c
      { m.cells.node c with next := none }).node c').idx =
        (m.cells.node c').idx ∧
      ((m.cells.set c
        { m.cells.node c with next := none }).node c').prev =
        (m.cells.node c').prev ∧
      ((m.cells.set c
        { m.cells.node c with next := none }).node c').val = (m.cells.node c').val := by
    intro c'
    by_cases hSame : c' = c
    · subst hSame
      simp
    · simp [hSame]
  let cells : Nodes C (Cell R D) :=
    ({ m.cells with live := live } : Nodes C (Cell R D)).set c { m.cells.node c with next := none }
  let ends : Ends C :=
    { (m.rows.node r).val with
      last := some c
      lastUsed := if update then some c
        else (m.rows.node r).val.lastUsed }
  have hCells : Indexed cells ends as := by
    refine hRow.take hIn ?_ ?_ ?_ ?_ hEnd.symm ?_
    · intro c' hc'
      rw [hEnd]
      by_cases hSame : c' = c
      · subst hSame
        simp [cells]
      · simp [cells, hSame, withUsed]
    · intro c' _
      exact (hNode c').2.1
    · intro c' _
      exact (hNode c').1
    · have hFirst : (m.rows.node r).val.first =
          (as ++ bs).head? := hRow.first_eq
      change (m.rows.node r).val.first = as.head?
      rw [hFirst]
      cases as with
      | nil => simp at hc
      | cons a as => rfl
    · intro c' hc'
      cases update with
      | true =>
        obtain rfl : c = c' := by simpa [ends] using hc'
        exact hc
      | false => exact hUsed rfl c' (by simpa [ends] using hc')
  rcases setEnds_spec (m := ({ m with cells := cells } :
        Matrixsparse R C D).withUsed none) hShape.rows hMem hShape.rows_live hCells
      (by
        intro c' hc'
        have hParent := hShape.parent r hMem c' (by simp [hSplit, hc'])
        exact (congrArg Cell.parent (hNode c').2.2).trans hParent)
      (by
        intro r' hr' hne
        have hFar : ∀ c' ∈ cs r', c' ≠ c := by
          rintro c' hc' rfl
          exact hOther r' hr' hne c' hc' (by simp [hSplit, hc])
        refine ⟨(hShape.cells r' hr').congr ?_ ?_, ?_⟩
        · intro c' hc'
          simp [withUsed, cells, hFar c' hc']
        · intro c' hc'
          refine (hLive c').mpr ⟨(hShape.cells r' hr').live c' hc', ?_⟩
          intro h
          exact hOther r' hr' hne c' hc' (by simp [hSplit, h])
        · intro c' hc'
          exact (congrArg Cell.parent (hNode c').2.2).trans (hShape.parent r' hr' c' hc'))
      (by
        intro c' hc'
        rcases (hLive c').mp hc' with ⟨hc', hOut⟩
        rcases hShape.live_cases r c' hc' with h | h
        · rw [hSplit, mem_append] at h
          exact Or.inl (h.resolve_right hOut)
        · exact Or.inr h) with ⟨m', hSet, hDone, -, -, -, -⟩
  rw [setEnds_eq _ (by exact hShape.rows.live r hMem)] at hSet
  have hEq := some.inj hSet
  rw [keepRow_eq update (by exact hShape.rows.live r hMem) (by exact hIn c hc) (by exact hNext)]
  refine ⟨_, rfl, ?_, ?_, ?_, ?_, rfl, rfl, rfl⟩
  · rw [← hEq] at hDone
    exact hDone
  · intro r'
    unfold rowOf
    by_cases hSame : r' = r
    · subst hSame
      simp
    · simp [hSame]
  · intro c'
    exact ⟨(hNode c').1, (hNode c').2.2⟩
  · intro r'
    by_cases hSame : r' = r
    · subst hSame
      simp
    · simp [hSame]

/- The function without the columns behind `cols` in a row. -/
def cutAt (f : Nat → Nat → Option D) (is : List Nat) (cols : Nat) : Nat → Nat → Option D :=
  fun i j => if i ∈ is ∧ cols ≤ j then none else f i j

/-
  In the second loop: the rows `done` have no cells behind
  `cols` any more, the rows `todo` are as they were.
-/
structure Cut (m : Matrixsparse R C D) (done todo : List R) (cs : R → List C)
    (f : Nat → Nat → Option D) (cols : Nat) : Prop where
  shape : Shape (m.withUsed none) (done ++ todo) cs
  stores : Stores m (done ++ todo) cs f
  cut : ∀ r ∈ done, ∀ c ∈ cs r, m.colOf c < cols

omit [DecidableEq R] [DecidableEq C] in
/- A row that keeps its cells `as`. -/
theorem Stores.keepRow {m m' : Matrixsparse R C D} {cs : R → List C}
    {as bs : List C} {f : Nat → Nat → Option D} [DecidableEq R]
    (hStores : Stores m rs cs f) (hRows : ∀ r' ∈ rs, m.rowOf r' = m.rowOf r → r' = r)
    (hMem : r ∈ rs) (hSplit : cs r = as ++ bs)
    (hAs : ∀ c ∈ as, m.colOf c < cols) (hBs : ∀ c ∈ bs, cols ≤ m.colOf c)
    (hRow : ∀ r', m'.rowOf r' = m.rowOf r')
    (hCell : ∀ c, m'.colOf c = m.colOf c ∧
      (m'.cells.node c).val = (m.cells.node c).val) :
    Stores m' rs (Function.update cs r as) (cutAt f [m.rowOf r] cols) := by
  refine ⟨?_, ?_⟩
  · intro r' hr' c hc
    rw [hRow, (hCell c).1, (hCell c).2]
    unfold cutAt
    by_cases hSame : r' = r
    · subst hSame
      rw [Function.update_self] at hc
      have hLess := hAs c hc
      rw [if_neg (fun h => by omega)]
      exact hStores.stored r' hr' c (by simp [hSplit, hc])
    · rw [Function.update_of_ne hSame] at hc
      rw [if_neg]
      · exact hStores.stored r' hr' c hc
      · intro h
        exact hSame (hRows r' hr' (mem_singleton.mp h.1))
  · intro i j hData
    unfold cutAt at hData
    split at hData
    · exact (hData rfl).elim
    · rename_i hOut
      rcases hStores.absent i j hData with ⟨r', hr', hi, c, hc, hj⟩
      refine ⟨r', hr', (hRow r').trans hi, c, ?_, (hCell c).1.trans hj⟩
      by_cases hSame : r' = r
      · subst hSame
        rw [Function.update_self]
        rw [hSplit, mem_append] at hc
        refine hc.resolve_right ?_
        intro hc
        apply hOut
        rw [← hi, ← hj]
        exact ⟨by simp, hBs c hc⟩
      · rw [Function.update_of_ne hSame]
        exact hc

omit [DecidableEq R] [DecidableEq C] in
/- A row without cells before `cols`. -/
theorem Stores.cutAt_eq {m : Matrixsparse R C D} {cs : R → List C}
    {f : Nat → Nat → Option D} (hStores : Stores m rs cs f)
    (hRows : ∀ r' ∈ rs, m.rowOf r' = m.rowOf r → r' = r)
    (hAll : ∀ c ∈ cs r, cols ≤ m.colOf c) : cutAt f [m.rowOf r] cols = clearRow f (m.rowOf r) := by
  funext i j
  unfold cutAt clearRow
  by_cases hi : i = m.rowOf r
  · by_cases hj : cols ≤ j
    · simp [hi, hj]
    · rw [if_neg (fun h => hj h.2), if_pos hi]
      by_contra hData
      rcases hStores.absent i j hData with ⟨r', hr', hRow, c, hc, hCol⟩
      have hEq := hRows r' hr' (hRow.trans hi)
      subst hEq
      exact hj (hCol ▸ hAll c hc)
  · simp [hi]

variable {done todo : List R}

/- The second loop on one row. -/
theorem cutRow_spec {m : Matrixsparse R C D} {cs : R → List C}
    {f : Nat → Nat → Option D} (update : Bool)
    (hCut : Cut m done (r :: todo) cs f cols) :
    ∃ m' kept cs', m.cutRow update cols r = some m' ∧
      Cut m' (done ++ kept) todo cs' (cutAt f [m.rowOf r] cols) cols ∧
      (kept = [r] ∧ (∃ c ∈ cs r, m.colOf c < cols) ∧
          m'.ends.lastUsed = m.ends.lastUsed ∨ kept = [] ∧
          (∀ c ∈ cs r, cols ≤ m.colOf c) ∧ m'.ends.lastUsed =
            if update ∧ m.ends.lastUsed = some r then todo.head?
            else m.ends.lastUsed) ∧
      (∀ r' ∈ todo, cs' r' = cs r') ∧
      (∀ r' ∈ done ++ kept ++ todo, m'.rowOf r' = m.rowOf r') ∧
      (∀ c, m'.colOf c = m.colOf c) ∧ m'.sizeRows = m.sizeRows ∧ m'.sizeCols = m.sizeCols := by
  rcases hCut with ⟨hShape, hStores, hDone⟩
  have hMem : r ∈ done ++ r :: todo := by simp
  have hrLive : r ∈ m.rows.live := hShape.rows.live r hMem
  have hRow := hShape.cells r hMem
  have hRows : ∀ r' ∈ done ++ r :: todo, m.rowOf r' = m.rowOf r → r' = r :=
    fun r' hr' h => hShape.rows.eq_of_idx hr' hMem h
  have hNodup := hShape.rows.linked.nodup
  rw [perm_middle.nodup_iff, nodup_cons] at hNodup
  have hne : ∀ r' ∈ done ++ todo, r' ≠ r := by
    rintro r' hr' rfl
    exact hNodup.1 hr'
  rcases hRow.cut cols with ⟨as, bs, hSplit, hAs, hBs⟩
  have hUsed : usedAbove m.cells (m.rows.node r).val cols =
      some ((m.rows.node r).val.lastUsed.any fun c =>
        decide (cols ≤ m.colOf c)) := by
    unfold usedAbove
    cases hLast : (m.rows.node r).val.lastUsed with
    | none => rfl
    | some c =>
      have hc := hRow.used_mem c hLast
      have hcLive := hRow.live c hc
      change c ∈ m.cells.live at hcLive
      simp only [Heap.read_of_mem hcLive, bind_eq_bind, bind_some]
      rfl
  have hNodupRow := hRow.linked.nodup
  have hLiveRow := hRow.live
  have hPrev : ∀ ps c qs, as ++ bs = ps ++ c :: qs → (m.cells.node c).prev = ps.getLast? := by
    intro ps c qs h
    have hLinked := hRow.linked
    rw [hSplit, h] at hLinked
    exact hLinked.prev_eq
  rw [hSplit] at hNodupRow hLiveRow
  rcases dropCells_spec hPrev hNodupRow hLiveRow hAs hBs
      (Heap.length_le_card hNodupRow hLiveRow) with ⟨live, hDrop, hLive⟩
  have hLast : (m.rows.node r).val.last = (as ++ bs).getLast? := by
    rw [← hSplit]
    exact hRow.last_eq
  unfold cutRow
  simp only [Heap.read_of_mem hrLive, bind_eq_bind, bind_some, hUsed, hLast]
  rw [show dropCells cols m.cells.live.card m _ = _ from hDrop]
  simp only [bind_some]
  cases hEnd : as.getLast? with
  | none =>
    -- No cell is left.
    have hNone : as = [] := getLast?_eq_none_iff.mp hEnd
    subst hNone
    rw [nil_append] at hSplit
    rw [← hSplit] at hBs hLive
    rcases dropRow_spec update hShape hLive with ⟨m', hRun, hShape', hRow', hCells', hUsed', hSizes⟩
    refine ⟨m', [], cs, hRun, ⟨by simpa using hShape', ?_, ?_⟩,
      Or.inr ⟨rfl, hBs, hUsed'⟩, fun _ _ => rfl, ?_, ?_, hSizes⟩
    · rw [hStores.cutAt_eq hRows hBs, append_nil]
      exact hStores.dropRow hShape.rows hRow' hCells'
    · intro r' hr' c hc
      unfold colOf
      rw [hCells']
      exact hDone r' (by simpa using hr') c hc
    · simpa using hRow'
    · intro c
      unfold colOf
      rw [hCells']
  | some c =>
    have hc := mem_of_getLast? hEnd
    rcases keepRow_spec ((m.rows.node r).val.lastUsed.any fun c =>
        decide (cols ≤ m.colOf c)) hShape hMem hSplit hEnd hLive
        (by
          intro hUpdate c' hc'
          rw [hc'] at hUpdate
          have hMemRow := hRow.used_mem c' hc'
          rw [hSplit, mem_append] at hMemRow
          refine hMemRow.resolve_right ?_
          intro h
          exact of_decide_eq_false hUpdate (hBs c' h)) with
      ⟨m', hRun, hShape', hRow', hCell', -, hEnds', hSizes⟩
    refine ⟨m', [r], _, hRun, ⟨by simpa using hShape', ?_, ?_⟩,
      Or.inl ⟨rfl, ⟨c, by simp [hSplit, hc], hAs c hc⟩, by rw [hEnds']⟩,
      ?_, fun r' _ => hRow' r', fun c' => (hCell' c').1, hSizes⟩
    · have hStores' := hStores.keepRow hRows hMem hSplit hAs hBs hRow' hCell'
      simpa using hStores'
    · intro r' hr' c' hc'
      rw [(hCell' c').1]
      rcases mem_append.mp hr' with hr' | hr'
      · rw [Function.update_of_ne (hne r' (by simp [hr']))] at hc'
        exact hDone r' hr' c' hc'
      · obtain rfl := mem_singleton.mp hr'
        rw [Function.update_self] at hc'
        exact hAs c' hc'
    · intro r' hr'
      exact Function.update_of_ne (hne r' (by simp [hr'])) _ _

omit [DecidableEq R] [DecidableEq C] in
theorem cutAt_cons (f : Nat → Nat → Option D) (i : Nat)
    (is : List Nat) (cols : Nat) : cutAt (cutAt f [i] cols) is cols = cutAt f (i :: is) cols := by
  funext i' j
  unfold cutAt
  by_cases hj : cols ≤ j
  · by_cases hi : i' = i <;> simp [hi, hj]
  · simp [hj]

/- The second loop. -/
theorem cutColumns_spec {m : Matrixsparse R C D} {cs : R → List C}
    {f : Nat → Nat → Option D} (update : Bool)
    (hCut : Cut m done todo cs f cols) (hFuel : todo.length ≤ fuel) :
    ∃ m' rs' cs', cutColumns update cols fuel m todo.head? = some m' ∧ Cut m' (done ++ rs') [] cs'
      (cutAt f (todo.map m.rowOf) cols) cols ∧
      (∀ r, r ∈ rs' ↔ r ∈ todo ∧ ∃ c ∈ cs r, m.colOf c < cols) ∧
      (∀ r ∈ done ++ rs', m'.rowOf r = m.rowOf r) ∧
      (update = false → m'.ends.lastUsed = m.ends.lastUsed) ∧
      (update = true →
        (∀ u, m.ends.lastUsed = some u → u ∈ done ++ todo) →
        ∀ u, m'.ends.lastUsed = some u → u ∈ done ++ rs') ∧
      m'.sizeRows = m.sizeRows ∧ m'.sizeCols = m.sizeCols := by
  induction todo generalizing m done cs f fuel with
  | nil =>
    have hSame : cutAt f [] cols = f := by
      funext i j
      simp [cutAt]
    refine ⟨m, [], cs, by cases fuel <;> rfl, ?_, by simp,
      fun _ _ => rfl, fun _ => rfl, fun _ h => h, rfl, rfl⟩
    rw [append_nil, map_nil, hSame]
    exact hCut
  | cons r todo ih =>
    cases fuel with
    | zero => simp at hFuel
    | succ fuel =>
      have hShape := hCut.shape
      have hrLive : r ∈ m.rows.live := hShape.rows.live r (by simp)
      have hNext : (m.rows.node r).next = todo.head? := hShape.rows.linked.next_eq
      have hNodup := hShape.rows.linked.nodup
      rw [perm_middle.nodup_iff, nodup_cons] at hNodup
      rcases cutRow_spec update hCut with ⟨m₁, kept, cs₁, hRun, hCut₁,
        hKept, hCs, hRow₁, hCol₁, hRows₁, hCols₁⟩
      rcases ih hCut₁ (by simpa using hFuel) with ⟨m₂, rs₂, cs₂, hLoop,
        hCut₂, hIff, hRow₂, hStays, hIn, hRows₂, hCols₂⟩
      have hMap : todo.map m₁.rowOf = todo.map m.rowOf :=
        map_congr_left (fun r' hr' => hRow₁ r' (by simp [hr']))
      rw [hMap, cutAt_cons] at hCut₂
      have hIff' : ∀ r', r' ∈ rs₂ ↔ r' ∈ todo ∧ ∃ c ∈ cs r', m.colOf c < cols := by
        intro r'
        rw [hIff]
        constructor
        · rintro ⟨hr', c, hc, hLess⟩
          rw [hCs r' hr'] at hc
          rw [hCol₁] at hLess
          exact ⟨hr', c, hc, hLess⟩
        · rintro ⟨hr', c, hc, hLess⟩
          refine ⟨hr', c, ?_, ?_⟩
          · rwa [hCs r' hr']
          · rwa [hCol₁]
      have hTodo : ∀ r' ∈ rs₂, r' ∈ todo := fun r' hr' => ((hIff' r').mp hr').1
      refine ⟨m₂, kept ++ rs₂, cs₂, ?_, ?_, ?_, ?_, ?_, ?_,
        hRows₂.trans hRows₁, hCols₂.trans hCols₁⟩
      · simp only [head?_cons, cutColumns, Heap.read_of_mem hrLive,
          hRun, hNext, bind_eq_bind, bind_some]
        exact hLoop
      · rw [← append_assoc]
        exact hCut₂
      · intro r'
        rw [mem_append, hIff', mem_cons]
        rcases hKept with ⟨rfl, hHas, -⟩ | ⟨rfl, hAll, -⟩
        · rw [mem_singleton]
          constructor
          · rintro (rfl | ⟨hr', h⟩)
            · exact ⟨Or.inl rfl, hHas⟩
            · exact ⟨Or.inr hr', h⟩
          · rintro ⟨rfl | hr', h⟩
            · exact Or.inl rfl
            · exact Or.inr ⟨hr', h⟩
        · constructor
          · rintro (h | ⟨hr', h⟩)
            · simp at h
            · exact ⟨Or.inr hr', h⟩
          · rintro ⟨rfl | hr', c, hc, hLess⟩
            · exact absurd (hAll c hc) (by omega)
            · exact Or.inr ⟨hr', c, hc, hLess⟩
      · intro r' hr'
        rw [← append_assoc] at hr'
        rw [hRow₂ r' hr']
        apply hRow₁
        simp only [mem_append] at hr' ⊢
        exact hr'.imp_right (hTodo r')
      · rintro rfl
        rw [hStays rfl]
        rcases hKept with ⟨-, -, hUsed⟩ | ⟨-, -, hUsed⟩
        · exact hUsed
        · simpa using hUsed
      · rintro rfl hUsed u hu
        rw [← append_assoc]
        refine hIn rfl ?_ u hu
        intro v hv
        rcases hKept with ⟨rfl, -, hSame⟩ | ⟨rfl, -, hSame⟩
        · rw [hSame] at hv
          simpa using hUsed v hv
        · rw [hSame] at hv
          split at hv
          · have hMem := mem_of_head? hv
            simp [hMem]
          · rename_i hOther
            have hMem := hUsed v hv
            have hne : v ≠ r := by
              rintro rfl
              exact hOther ⟨rfl, hv⟩
            simpa [hne] using hMem

---
-- The Whole Call
---

/- The first cell of the row is before the column `cols`. -/
def KeepsCell (m : Matrixsparse R C D) (cols : Nat) (r : R) : Prop :=
  ∃ c, (m.rows.node r).val.first = some c ∧ m.colOf c < cols

/-
  The row that was used last is behind the new size, or keeps
  a cell, or no row inside of the new size keeps one.
-/
def UsedKept (m : Matrixsparse R C D) (rows cols : Nat) : Prop :=
  ∀ u, m.ends.lastUsed = some u → m.rowOf u < rows →
    m.KeepsCell cols u ∨
      ∀ r ∈ m.rows.live, m.rowOf r < rows →
        ¬ m.KeepsCell cols r

/- A call that returns early, or that keeps this row. -/
def Resizable (m : Matrixsparse R C D) (rows cols : Nat) : Prop :=
  0 < rows ∧ 0 < cols →
    ¬ (rows = m.sizeRows ∧ cols = m.sizeCols) →
    m.UsedKept rows cols

variable {m : Matrixsparse R C D} {cs : R → List C}

omit [DecidableEq R] [DecidableEq C] in
/- A row keeps a cell when one of its cells is kept. -/
theorem Shape.keepsCell_iff (hShape : Shape m rs cs) (hMem : r ∈ rs) :
    m.KeepsCell cols r ↔ ∃ c ∈ cs r, m.colOf c < cols := by
  have hRow := hShape.cells r hMem
  unfold KeepsCell
  rw [hRow.first_eq]
  constructor
  · rintro ⟨c, hFirst, hLess⟩
    exact ⟨c, mem_of_head? hFirst, hLess⟩
  · rintro ⟨c, hc, hLess⟩
    have hAscending := hRow.ascending
    cases hList : cs r with
    | nil => simp [hList] at hc
    | cons a l =>
      refine ⟨a, rfl, ?_⟩
      rw [hList] at hAscending hc
      rcases mem_cons.mp hc with rfl | hc
      · exact hLess
      · have hBefore := rel_of_pairwise_cons hAscending hc
        unfold colOf at *
        omega

variable {f : Nat → Nat → Option D}

omit [DecidableEq R] [DecidableEq C] in
/- The data of the first rows. -/
theorem Stores.take (hStores : Stores m (as ++ bs) cs f) (hAs : ∀ r ∈ as, m.rowOf r < rows)
    (hBs : ∀ r ∈ bs, rows ≤ m.rowOf r) :
    Stores m as cs (fun i j => if i < rows then f i j else none) := by
  refine ⟨?_, ?_⟩
  · intro r hr c hc
    rw [if_pos (hAs r hr)]
    exact hStores.stored r (by simp [hr]) c hc
  · intro i j hData
    split at hData
    · rename_i hLess
      rcases hStores.absent i j hData with ⟨r, hr, hRow, h⟩
      refine ⟨r, ?_, hRow, h⟩
      refine (mem_append.mp hr).resolve_right ?_
      intro hr
      have hFar := hBs r hr
      omega
    · exact (hData rfl).elim

omit [DecidableEq R] [DecidableEq C] in
/- Both loops leave the data inside of the new size. -/
theorem Stores.cut_eq_restrict (hStores : Stores m (as ++ bs) cs f)
    (hBs : ∀ r ∈ bs, rows ≤ m.rowOf r) :
    cutAt (fun i j => if i < rows then f i j else none)
      (as.map m.rowOf) cols = restrict f rows cols := by
  funext i j
  unfold cutAt restrict
  by_cases hi : i < rows
  · by_cases hj : j < cols
    · simp [hi, hj]
    · simp only [hi, hj, and_false, if_false, if_true]
      split
      · rfl
      · rename_i hOut
        by_contra hData
        rcases hStores.absent i j hData with ⟨r, hr, hRow, -⟩
        rcases mem_append.mp hr with hr | hr
        · exact hOut ⟨mem_map.mpr ⟨r, hr, hRow⟩, Nat.le_of_not_lt hj⟩
        · have hFar := hBs r hr
          omega
  · simp [hi]

/- The state behind the two loops. -/
structure Looped (m m' : Matrixsparse R C D) (rs rs' : List R) (cs cs' : R → List C)
    (f : Nat → Nat → Option D) (rows cols : Nat) (update : Bool) : Prop where
  shape : Shape (m'.withUsed none) rs' cs'
  stores : Stores m' rs' cs' (restrict f rows cols)
  row_lt : ∀ r ∈ rs', m'.rowOf r < rows
  col_lt : ∀ r ∈ rs', ∀ c ∈ cs' r, m'.colOf c < cols
  mem_iff : ∀ r, r ∈ rs' ↔
    r ∈ rs ∧ m.rowOf r < rows ∧ ∃ c ∈ cs r, m.colOf c < cols
  stays : update = false → m'.ends.lastUsed = m.ends.lastUsed
  used_mem : update = true →
    ∀ u, m'.ends.lastUsed = some u → u ∈ rs'

/- The call up to the last repair of `last_used`. -/
theorem sizeSet_loops (rows cols : Nat) (hRep : Represents m rs cs f) (hSize : 0 < rows ∧ 0 < cols)
    (hOther : ¬ (rows = m.sizeRows ∧ cols = m.sizeCols)) :
    ∃ m' rs' cs' update,
      m.sizeSet rows cols = (m'.usedBehind.bind fun behind =>
        some ({ m' with
          ends := if behind then
              { m'.ends with lastUsed := m'.ends.last }
            else m'.ends
          sizeRows := rows
          sizeCols := cols }, true)) ∧
      (update = true ↔
        ∃ u, m.ends.lastUsed = some u ∧ rows ≤ m.rowOf u) ∧
      Looped m m' rs rs' cs cs' f rows cols update := by
  rcases hRep with ⟨hShape, hStores, -⟩
  have hUpdate : ∃ update,
      usedAbove m.rows m.ends rows = some update ∧
      (update = true ↔ ∃ u, m.ends.lastUsed = some u ∧ rows ≤ m.rowOf u) := by
    unfold usedAbove
    cases hLast : m.ends.lastUsed with
    | none => exact ⟨false, rfl, by simp⟩
    | some u =>
      have hu := hShape.rows.used_mem u hLast
      have huLive := hShape.rows.live u hu
      refine ⟨decide (rows ≤ m.rowOf u), ?_, by simp⟩
      simp only [Heap.read_of_mem huLive, bind_eq_bind, bind_some]
      rfl
  rcases hUpdate with ⟨update, hAbove, hIff⟩
  rcases hShape.rows.cut rows with ⟨as, bs, rfl, hAs, hBs⟩
  rcases cutRows_spec hShape hAs hBs with ⟨m₁, m₂, hDrop, hCutRows, hShape₂, hUsed₂, hLast₂, hSame₂⟩
  have hStores₂ := (hStores.take hAs hBs).congr hSame₂
  -- `last_used` when it was behind the new size
  let m₃ : Matrixsparse R C D :=
    if update then
      { m₂ with ends := { m₂.ends with lastUsed := m₂.ends.last } }
    else
      m₂
  have hNone : m₃.withUsed none = m₂.withUsed none := by
    cases update <;> rfl
  have hRows₃ : m₃.rows = m₂.rows := by
    cases update <;> rfl
  have hCells₃ : m₃.cells = m₂.cells := by
    cases update <;> rfl
  have hRowOf : ∀ r, m₃.rowOf r = m.rowOf r := by
    intro r
    rw [← hSame₂.row]
    unfold rowOf
    rw [hRows₃]
  have hColOf : ∀ c, m₃.colOf c = m.colOf c := by
    intro c
    rw [← hSame₂.col]
    unfold colOf
    rw [hCells₃]
  have hCut : Cut m₃ [] as cs (fun i j => if i < rows then f i j else none) cols := by
    refine ⟨?_, ?_, by simp⟩
    · rw [hNone]
      exact hShape₂ none (by simp)
    · refine hStores₂.congr ⟨by rw [hCells₃], ?_, ?_, ?_⟩
      · intro r
        rw [hRowOf, hSame₂.row]
      · cases update <;> rfl
      · cases update <;> rfl
  have hRowsShape := hCut.shape.rows
  have hFuel : as.length ≤ m₃.rows.live.card :=
    Heap.length_le_card hRowsShape.linked.nodup hRowsShape.live
  have hFirst : m₃.ends.first = as.head? := hRowsShape.first_eq
  rcases cutColumns_spec update hCut hFuel with
    ⟨m', rs', cs', hLoop, hCut', hMem, hRow', hStays, hIn, -⟩
  rw [map_congr_left (fun r _ => hRowOf r), hStores.cut_eq_restrict hBs] at hCut'
  rw [nil_append] at *
  have hMem' : ∀ r, r ∈ rs' ↔ r ∈ as ++ bs ∧ m.rowOf r < rows ∧ ∃ c ∈ cs r, m.colOf c < cols := by
    intro r
    simp only [hMem, hColOf]
    constructor
    · rintro ⟨hr, h⟩
      exact ⟨by simp [hr], hAs r hr, h⟩
    · rintro ⟨hr, hLess, h⟩
      refine ⟨(mem_append.mp hr).resolve_right ?_, h⟩
      intro hr
      have hFar := hBs r hr
      change rows ≤ m.rowOf r at hFar
      omega
  refine ⟨m', rs', cs', update, ?_, hIff, by simpa using hCut'.shape,
    by simpa using hCut'.stores, ?_, hCut'.cut, hMem', ?_, ?_⟩
  · unfold sizeSet
    rw [if_neg (not_not.mpr hSize), if_neg hOther]
    simp only [hAbove, hDrop, hCutRows, bind_eq_bind, bind_some]
    rw [show (if update = true then _ else m₂) = m₃ from rfl, hFirst, hLoop]
    rfl
  · intro r hr
    rw [hRow' r hr, hRowOf]
    exact ((hMem' r).mp hr).2.1
  · rintro rfl
    exact (hStays rfl).trans hUsed₂
  · rintro rfl
    refine hIn rfl ?_
    intro u hu
    have hLast : m₂.ends.last = some u := hu
    rw [hLast₂] at hLast
    exact mem_of_getLast? hLast

omit [DecidableEq C] in
/- `last_used` is not behind the last row. -/
theorem usedBehind_of_mem (hShape : Shape m rs cs) : m.usedBehind = some false := by
  unfold usedBehind
  cases hUsed : m.ends.lastUsed with
  | none => rfl
  | some u =>
    have hu := hShape.rows.used_mem u hUsed
    rcases eq_nil_or_concat rs with rfl | ⟨ps, l, rfl⟩
    · simp at hu
    · rw [concat_eq_append] at *
      have hLast : m.ends.last = some l := by
        rw [hShape.rows.last_eq, getLast?_concat]
      have hLess : (m.rows.node u).idx ≤ (m.rows.node l).idx := by
        rcases mem_append.mp hu with hu | hu
        · exact Nat.le_of_lt ((pairwise_append.mp hShape.rows.ascending).2.2 u hu l (by simp))
        · rw [mem_singleton.mp hu]
      simp only [hLast, Heap.read_of_mem (hShape.rows.live u hu),
        Heap.read_of_mem (hShape.rows.live l (by simp)), bind_eq_bind, bind_some]
      rw [decide_eq_false (by omega)]

/- `eina_matrixsparse_size_set`, where it keeps `last_used`. -/
theorem sizeSet_spec (rows cols : Nat) (hRep : Represents m rs cs f)
    (hOk : m.Resizable rows cols) :
    ∃ m' rs' cs', m.sizeSet rows cols =
        some (m', decide (0 < rows ∧ 0 < cols)) ∧
      Represents m' rs' cs' (if 0 < rows ∧ 0 < cols then restrict f rows cols
        else f) ∧
      m'.sizeRows =
        (if 0 < rows ∧ 0 < cols then rows else m.sizeRows) ∧
      m'.sizeCols = (if 0 < rows ∧ 0 < cols then cols else m.sizeCols) := by
  by_cases hSize : 0 < rows ∧ 0 < cols
  swap
  · simp only [if_neg hSize, decide_eq_false hSize]
    refine ⟨m, rs, cs, ?_, hRep, rfl, rfl⟩
    unfold sizeSet
    rw [if_pos hSize]
  simp only [if_pos hSize, decide_eq_true hSize]
  by_cases hOther : rows = m.sizeRows ∧ cols = m.sizeCols
  · have hSame : restrict f rows cols = f := by
      funext i j
      unfold restrict
      split
      · rfl
      · rename_i hOut
        by_contra hData
        have hIn := hRep.inside (fun h => hData h.symm)
        rw [← hOther.1, ← hOther.2] at hIn
        exact hOut hIn
    refine ⟨m, rs, cs, ?_, by rwa [hSame], hOther.1.symm, hOther.2.symm⟩
    unfold sizeSet
    rw [if_neg (not_not.mpr hSize), if_pos hOther]
  rcases sizeSet_loops rows cols hRep hSize hOther with
    ⟨m', rs', cs', update, hRun, hUpdate, hLooped⟩
  have hShape := hLooped.shape
  rw [hRun]
  -- Unless no row is left, `last_used` is still linked.
  by_cases hLinked : ∀ u, m'.ends.lastUsed = some u → u ∈ rs'
  · have hShape' : Shape m' rs' cs' :=
      ⟨hShape.rows.setUsed m'.ends.lastUsed hLinked, hShape.rows_live,
        hShape.cells, hShape.parent, hShape.cells_live⟩
    rw [usedBehind_of_mem hShape']
    simp only [bind_some, Bool.false_eq_true, if_false]
    exact ⟨_, rs', cs', rfl, ⟨⟨hShape'.rows, hShape'.rows_live,
      hShape'.cells, hShape'.parent, hShape'.cells_live⟩,
      ⟨hLooped.stores.stored, hLooped.stores.absent⟩, ⟨hLooped.row_lt, hLooped.col_lt⟩⟩, rfl, rfl⟩
  · rw [not_forall] at hLinked
    rcases hLinked with ⟨u, hu⟩
    rw [Classical.not_imp] at hu
    rcases hu with ⟨hUsed, hOut⟩
    have hKeeps : update = false := by
      cases update with
      | false => rfl
      | true => exact (hOut (hLooped.used_mem rfl u hUsed)).elim
    have hUsed₀ : m.ends.lastUsed = some u := (hLooped.stays hKeeps).symm.trans hUsed
    have hu := hRep.shape.rows.used_mem u hUsed₀
    have hLess : m.rowOf u < rows := by
      by_contra hFar
      have hTrue := hUpdate.mpr ⟨u, hUsed₀, by omega⟩
      rw [hKeeps] at hTrue
      exact Bool.false_ne_true hTrue
    have hEmpty : rs' = [] := by
      rcases hOk hSize hOther u hUsed₀ hLess with h | h
      · rw [hRep.shape.keepsCell_iff hu] at h
        exact (hOut ((hLooped.mem_iff u).mpr ⟨hu, hLess, h⟩)).elim
      · rw [eq_nil_iff_forall_not_mem]
        intro r hr
        rcases (hLooped.mem_iff r).mp hr with ⟨hr, hIn, hCell⟩
        exact h r (hRep.shape.rows.live r hr) hIn ((hRep.shape.keepsCell_iff hr).mpr hCell)
    subst hEmpty
    have hLast : m'.ends.last = none := hShape.rows.last_eq
    have hBehind : m'.usedBehind = some true := by
      unfold usedBehind
      simp [hUsed, hLast]
    rw [hBehind]
    simp only [bind_some, if_true, hLast]
    exact ⟨_, [], cs', rfl, ⟨⟨⟨hShape.rows.linked, hShape.rows.live,
      hShape.rows.ascending, hShape.rows.first_eq, rfl, by simp⟩,
      hShape.rows_live, hShape.cells, hShape.parent, hShape.cells_live⟩,
      ⟨hLooped.stores.stored, hLooped.stores.absent⟩, ⟨hLooped.row_lt, hLooped.col_lt⟩⟩, rfl, rfl⟩

end Efl.Eina.Matrixsparse
