import Efl.Eina.Safepointer.Tables

/-
  The search for a table with an entry left.

  A table that is put at an empty place has room, so that the
  search ends there.

  Main declarations:
    * `Full`
    * `Found`
    * `rowFind_spec`
    * `tableFind_spec`
-/

---
-- Places
---

namespace Efl.Eina.Safepointer

open Option Function

variable {T : Type}

variable {s : Memory T} {mid : Nat} {row : Nat → Option (Table T)}

/- Another content of one place -/
theorem tableAt_setTable (tab : Nat) (table : Option (Table T))
    (hRow : s.idsTables mid = some row) (m b : Nat) :
    (s.setTable mid tab table).tableAt m b =
      if m = mid ∧ b = tab then table else s.tableAt m b := by
  unfold Memory.setTable Memory.tableAt
  dsimp only
  rw [hRow, map_some]
  by_cases hMid : m = mid
  · subst hMid
    rw [update_self, bind_some, hRow, bind_some, update_apply]
    simp
  · rw [update_of_ne hMid, if_neg]
    exact fun hBoth => hMid hBoth.1

variable {tab : Nat}

theorem row_of_tableAt {table : Table T}
    (hAt : s.tableAt mid tab = some table) : ∃ row, s.idsTables mid = some row := by
  unfold Memory.tableAt at hAt
  rw [bind_eq_some_iff] at hAt
  rcases hAt with ⟨row, hRow, -⟩
  exact ⟨row, hRow⟩

/- The table of a place has no entry left. -/
def Full (s : Memory T) (mid tab : Nat) : Prop :=
  ∃ table, s.tableAt mid tab = some table ∧
    table.hasRoom = false

/- The tables are the same. -/
structure SameTables (s s' : Memory T) : Prop where
  tableAt : ∀ m b, s'.tableAt m b = s.tableAt m b
  emptyTable : s'.emptyTable = s.emptyTable

/-
  From a state to one with a table at a place: one that was
  there, or the spare one, or a new one.
-/
structure Found (s s' : Memory T) (mid tab : Nat) (table : Table T) : Prop where
  mid_lt : mid < 2048
  tab_lt : tab < 2046
  tableAt :
    ∀ m b, s'.tableAt m b =
      if m = mid ∧ b = tab then some table else s.tableAt m b
  room : table.hasRoom = true
  source :
    (s.tableAt mid tab = some table ∧
      s'.emptyTable = s.emptyTable) ∨
    (s.tableAt mid tab = none ∧
      table = { s.emptyTable.getD .zero with
        partialId := composePartial mid tab } ∧
      s'.emptyTable = none)

theorem Found.tableAt_self {s' : Memory T} {table : Table T}
    (hFound : Found s s' mid tab table) : s'.tableAt mid tab = some table := by
  rw [hFound.tableAt, if_pos ⟨rfl, rfl⟩]

/- Rows may have been added before. -/
theorem SameTables.found {s₁ s' : Memory T} {table : Table T}
    (hSame : SameTables s s₁) (hFound : Found s₁ s' mid tab table) : Found s s' mid tab table := by
  rcases hFound with ⟨hMid, hTab, hAt, hRoom, hSource⟩
  refine ⟨hMid, hTab, ?_, hRoom, ?_⟩
  · intro m b
    rw [hAt, hSame.tableAt]
  · rw [hSame.tableAt, hSame.emptyTable] at hSource
    exact hSource

---
-- The Search
---

/- What is put at a place that is empty. -/
theorem tableNew_found (hMid : mid < 2048) (hTab : tab < 2046) (hRow : s.idsTables mid = some row)
    (hSpare : (s.emptyTable.getD .zero).hasRoom = true)
    (hNone : s.tableAt mid tab = none) :
    Found s (tableNew s mid tab) mid tab
      { s.emptyTable.getD .zero with
        partialId := composePartial mid tab } where
  mid_lt := hMid
  tab_lt := hTab
  tableAt := tableAt_setTable (s := { s with emptyTable := none }) tab _ hRow
  room := hSpare
  source := Or.inr ⟨hNone, rfl, rfl⟩

/- A row has a table with room, or all its tables are full. -/
theorem rowFind_spec (hMid : mid < 2048) (hRow : s.idsTables mid = some row)
    (hSpare : (s.emptyTable.getD .zero).hasRoom = true) (n tab : Nat)
    (hBound : tab + n ≤ 2046) :
    (∃ s' b table, rowFind mid n tab s = (s', some (mid, b)) ∧
      Found s s' mid b table) ∨
    (rowFind mid n tab s = (s, none) ∧ ∀ b, tab ≤ b → b < tab + n → Full s mid b) := by
  induction n generalizing tab with
  | zero =>
    refine Or.inr ⟨rfl, ?_⟩
    intro b hLow hHigh
    omega
  | succ n ih =>
    cases hAt : s.tableAt mid tab with
    | none =>
      have hFound := tableNew_found hMid (by omega) hRow hSpare hAt
      refine Or.inl ⟨tableNew s mid tab, tab, _, ?_, hFound⟩
      rw [rowFind, hAt]
      dsimp only
      rw [hFound.tableAt_self]
      exact if_pos hFound.room
    | some table =>
      by_cases hRoom : table.hasRoom = true
      · refine Or.inl ⟨s, tab, table, ?_, hMid, by omega, ?_, hRoom, Or.inl ⟨hAt, rfl⟩⟩
        · rw [rowFind, hAt]
          dsimp only
          rw [hAt]
          exact if_pos hRoom
        · intro m b
          split
          case isTrue hPlace =>
            rcases hPlace with ⟨rfl, rfl⟩
            exact hAt
          case isFalse => rfl
      · have hFind : rowFind mid (n + 1) tab s = rowFind mid n (tab + 1) s := by
          rw [rowFind, hAt]
          dsimp only
          rw [hAt]
          exact if_neg hRoom
        rw [hFind]
        rcases ih (tab + 1) (by omega) with hSome | ⟨hNone, hFull⟩
        · exact Or.inl hSome
        · refine Or.inr ⟨hNone, ?_⟩
          intro b hLow hHigh
          rcases Nat.eq_or_lt_of_le hLow with rfl | hLess
          · rw [Bool.not_eq_true] at hRoom
            exact ⟨table, hAt, hRoom⟩
          · exact hFull b hLess (by omega)

/- A row more changes no table. -/
theorem midTable_spec (s : Memory T) (mid : Nat) :
    (∃ row, (midTable s mid).idsTables mid = some row) ∧ SameTables s (midTable s mid) := by
  unfold midTable
  cases hRow : s.idsTables mid with
  | some row => exact ⟨⟨row, hRow⟩, fun _ _ => rfl, rfl⟩
  | none =>
    refine ⟨⟨_, update_self _ _ _⟩, ?_, rfl⟩
    intro m b
    unfold Memory.tableAt
    dsimp only
    by_cases hSame : m = mid
    · subst hSame
      rw [update_self, hRow]
      rfl
    · rw [update_of_ne hSame]

theorem midFind_spec (hSpare : (s.emptyTable.getD .zero).hasRoom = true)
    (n mid : Nat) (hBound : mid + n ≤ 2048) :
    (∃ s' m b table, midFind n mid s = (s', some (m, b)) ∧
      Found s s' m b table) ∨
    ∃ s', midFind n mid s = (s', none) ∧ SameTables s s' ∧
      ∀ m b, mid ≤ m → m < mid + n → b < 2046 → Full s m b := by
  induction n generalizing mid s with
  | zero =>
    refine Or.inr ⟨s, rfl, ⟨fun _ _ => rfl, rfl⟩, ?_⟩
    intro m b hLow hHigh
    omega
  | succ n ih =>
    rcases midTable_spec s mid with ⟨⟨row, hRow⟩, hSame⟩
    rw [← hSame.emptyTable] at hSpare
    rcases rowFind_spec (show mid < 2048 by omega) hRow hSpare maxTableId 0 (Nat.le_refl _) with
      ⟨s', b, table, hFind, hFound⟩ | ⟨hFind, hRowFull⟩
    · refine Or.inl ⟨s', mid, b, table, ?_, hSame.found hFound⟩
      rw [midFind, hFind]
    · have hNext : midFind (n + 1) mid s = midFind n (mid + 1) (midTable s mid) := by
        rw [midFind, hFind]
      rw [hNext]
      rcases ih hSpare (mid + 1) (by omega) with ⟨s', m, b, table,
        hSome, hFound⟩ | ⟨s', hNone, hSame', hFull⟩
      · exact Or.inl ⟨s', m, b, table, hSome, hSame.found hFound⟩
      · refine Or.inr ⟨s', hNone, ⟨?_, ?_⟩, ?_⟩
        · intro m b
          rw [hSame'.tableAt, hSame.tableAt]
        · rw [hSame'.emptyTable, hSame.emptyTable]
        · intro m b hLow hHigh hTab
          unfold Full at hRowFull hFull ⊢
          rw [← hSame.tableAt]
          rcases Nat.eq_or_lt_of_le hLow with rfl | hLess
          · refine hRowFull b (Nat.zero_le b) ?_
            rw [Nat.zero_add]
            exact hTab
          · exact hFull m b hLess (by omega) hTab

/- A table with room is found, unless all tables are full. -/
theorem tableFind_spec (hSpare : (s.emptyTable.getD .zero).hasRoom = true) {m b : Nat}
    (hMid : m < 2048) (hTab : b < 2046) (hRoom : ¬ Full s m b) :
    ∃ s' mid tab table, tableFind s = (s', some (mid, tab)) ∧ Found s s' mid tab table := by
  rcases midFind_spec hSpare 2048 0 (Nat.le_refl _) with hSome | ⟨s', -, -, hFull⟩
  · exact hSome
  · have hHere := hFull m b (Nat.zero_le m) (by omega) hTab
    exact absurd hHere hRoom

end Efl.Eina.Safepointer
