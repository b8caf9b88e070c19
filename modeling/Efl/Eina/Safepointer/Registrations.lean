import Efl.Eina.Safepointer.Search

/-
  What a registration and its end do to the tables.

  Main declarations:
    * `ActiveAt`
    * `Registered`, `Ended`
    * `register_spec`, `Registered.activeAt`
    * `get_isSome`, `unregister_isSome`
-/

---
-- Active Entries
---

namespace Efl.Eina.Safepointer

open Option Function

variable {T : Type}

/- The entry of a place stands for a target. -/
def ActiveAt (s : Memory T) (mid tab e : Nat) (t : T) (g : Nat) : Prop :=
  ∃ table, s.tableAt mid tab = some table ∧
    table.entries e = ⟨.target t, true, g⟩

variable {s : Memory T} {mid tab e g : Nat}

theorem ActiveAt.unique {g' : Nat} {t t' : T} (hLeft : ActiveAt s mid tab e t g)
    (hRight : ActiveAt s mid tab e t' g') : t = t' ∧ g = g' := by
  rcases hLeft with ⟨table, hAt, hEntry⟩
  rcases hRight with ⟨table', hAt', hEntry'⟩
  rw [hAt] at hAt'
  obtain rfl := some.inj hAt'
  rw [hEntry] at hEntry'
  simpa using hEntry'

/- The tables at their places, and the spare one -/
structure Tables (s : Memory T) : Prop where
  mid_lt :
    ∀ mid tab table, s.tableAt mid tab = some table →
      mid < 2048
  tab_lt :
    ∀ mid tab table, s.tableAt mid tab = some table →
      tab < 2046
  ok :
    ∀ mid tab table, s.tableAt mid tab = some table →
      TableOk table
  partialId :
    ∀ mid tab table, s.tableAt mid tab = some table →
      table.partialId = composePartial mid tab
  spare : ∀ table, s.emptyTable = some table → TableOk table
  empty :
    ∀ table, s.emptyTable = some table →
      ∀ e, (table.entries e).active = false

/- The table that is put at an empty place -/
theorem Tables.getD (hTables : Tables s) :
    TableOk (s.emptyTable.getD .zero) ∧
      ∀ e, ((s.emptyTable.getD .zero).entries e).active =
        false := by
  cases hSpare : s.emptyTable with
  | none => exact ⟨Table.zero_ok, fun _ => rfl⟩
  | some table =>
    exact ⟨hTables.spare table hSpare, hTables.empty table hSpare⟩

/- The numbers of an active entry -/
theorem Tables.inRange {t : T} (hTables : Tables s)
    (hActive : ActiveAt s mid tab e t g) : InRange mid tab e g := by
  rcases hActive with ⟨table, hAt, hEntry⟩
  have hOk := hTables.ok mid tab table hAt
  have hHeld := hOk.held e (by rw [hEntry])
  have hGen := hOk.generation e
  have hPos := hHeld.2.generation
  have hStart := hOk.start_le
  rw [hEntry] at hGen hPos
  exact ⟨hTables.mid_lt mid tab table hAt, hTables.tab_lt mid tab table hAt, by omega, hPos, hGen⟩

/- An active entry of a table stands for a target. -/
theorem TableOk.entry_eq {table : Table T} (hOk : TableOk table)
    (hActive : (table.entries e).active = true) :
    ∃ t, table.entries e = ⟨.target t, true, (table.entries e).generation⟩ := by
  rcases (hOk.held e hActive).2.target with ⟨t, hPtr⟩
  refine ⟨t, ?_⟩
  rw [← hPtr, ← hActive]

---
-- Registration
---

/- From a state to one with an entry filled. -/
structure Registered (s s' : Memory T) (t : T) (mid tab e : Nat)
    (base table : Table T) : Prop where
  found : (tableFind s).2 = some (mid, tab)
  mid_lt : mid < 2048
  tab_lt : tab < 2046
  entry_lt : e < 4094
  tableAt :
    ∀ m b, s'.tableAt m b =
      if m = mid ∧ b = tab then some table else s.tableAt m b
  ok : TableOk table
  partialId : table.partialId = composePartial mid tab
  free : (base.entries e).active = false
  generation : (base.entries e).generation < 2048
  entries :
    table.entries = update base.entries e
      ⟨.target t, true, advance (base.entries e).generation⟩
  source :
    (s.tableAt mid tab = some base ∧
      s'.emptyTable = s.emptyTable) ∨
    (s.tableAt mid tab = none ∧
      base.entries = (s.emptyTable.getD .zero).entries ∧
      s'.emptyTable = none)

/- While a table has room, a target gets an id. -/
theorem register_spec {m b : Nat} (t : T) (hTables : Tables s)
    (hMid : m < 2048) (hTab : b < 2046) (hRoom : ¬ Full s m b) :
    ∃ s' mid tab e base table, register s (some t) = some (s',
      compose mid tab e (advance (base.entries e).generation)) ∧
      Registered s s' t mid tab e base table := by
  have hSpare := hTables.getD.1.room_of_inactive hTables.getD.2
  rcases tableFind_spec hSpare hMid hTab hRoom with ⟨s₁, mid, tab, base, hFind, hFound⟩
  have hBase : TableOk base ∧ base.partialId = composePartial mid tab := by
    rcases hFound.source with ⟨hAt, -⟩ | ⟨-, rfl, -⟩
    · exact ⟨hTables.ok mid tab base hAt, hTables.partialId mid tab base hAt⟩
    · exact ⟨hTables.getD.1.partialId _, rfl⟩
  rcases entryFind_spec hBase.1 hFound.room with
    ⟨table, e, hEntry, hLess, hFree, hEntries, hPartial, hOk⟩
  rcases row_of_tableAt hFound.tableAt_self with ⟨row, hRow⟩
  have hGen := hBase.1.generation e
  have hNext := advance_range hGen
  let filled := table.setEntry e ⟨.target t, true, advance (base.entries e).generation⟩
  refine ⟨s₁.setTable mid tab (some filled), mid, tab, e, base, filled, ?_, ?_⟩
  · rw [register, hFind]
    dsimp only
    rw [hFound.tableAt_self, bind_eq_bind, bind_some, hEntry, bind_eq_bind, bind_some]
    dsimp only
    rw [hEntries, Table.partialId_setEntry, hPartial, hBase.2]
    rfl
  · refine ⟨by rw [hFind], hFound.mid_lt, hFound.tab_lt, hLess,
      ?_, hOk t _ hNext.1 hNext.2, ?_, hFree, hGen, ?_, ?_⟩
    · intro m b
      rw [tableAt_setTable tab _ hRow, hFound.tableAt]
      split <;> rfl
    · rw [Table.partialId_setEntry, hPartial, hBase.2]
    · rw [Table.entries_setEntry, hEntries]
    · rcases hFound.source with ⟨hAt, hEmpty⟩ | ⟨hNone, rfl, hEmpty⟩
      · exact Or.inl ⟨hAt, hEmpty⟩
      · exact Or.inr ⟨hNone, rfl, hEmpty⟩

section

variable {s s' : Memory T} {t : T} {mid tab e : Nat}
variable {base table : Table T}

section

variable (hNew : Registered s s' t mid tab e base table)

include hNew

section

variable (hTables : Tables s)

include hTables

theorem Registered.tables : Tables s' := by
  have hCases : ∀ m b u, s'.tableAt m b = some u →
      (m = mid ∧ b = tab ∧ u = table) ∨ s.tableAt m b = some u := by
    intro m b u hAt
    rw [hNew.tableAt] at hAt
    split at hAt
    case isTrue hPlace =>
      exact Or.inl ⟨hPlace.1, hPlace.2, (some.inj hAt).symm⟩
    case isFalse => exact Or.inr hAt
  have hSpare : ∀ u, s'.emptyTable = some u → s.emptyTable = some u := by
    intro u hEmpty
    rcases hNew.source with ⟨-, hSame⟩ | ⟨-, -, hNone⟩
    · rw [← hSame, hEmpty]
    · rw [hNone] at hEmpty
      exact nomatch hEmpty
  constructor
  · intro m b u hAt
    rcases hCases m b u hAt with ⟨rfl, -, -⟩ | hAt
    · exact hNew.mid_lt
    · exact hTables.mid_lt m b u hAt
  · intro m b u hAt
    rcases hCases m b u hAt with ⟨-, rfl, -⟩ | hAt
    · exact hNew.tab_lt
    · exact hTables.tab_lt m b u hAt
  · intro m b u hAt
    rcases hCases m b u hAt with ⟨-, -, rfl⟩ | hAt
    · exact hNew.ok
    · exact hTables.ok m b u hAt
  · intro m b u hAt
    rcases hCases m b u hAt with ⟨rfl, rfl, rfl⟩ | hAt
    · exact hNew.partialId
    · exact hTables.partialId m b u hAt
  · intro u hEmpty
    exact hTables.spare u (hSpare u hEmpty)
  · intro u hEmpty
    exact hTables.empty u (hSpare u hEmpty)

/- What the table of the place held before -/
theorem Registered.base_iff
    (n : Nat) (o : T) (k : Nat) :
    base.entries n = ⟨.target o, true, k⟩ ↔ ActiveAt s mid tab n o k := by
  rcases hNew.source with ⟨hAt, -⟩ | ⟨hNone, hEntries, -⟩
  · constructor
    · intro hEntry
      exact ⟨base, hAt, hEntry⟩
    · rintro ⟨u, hAt', hEntry⟩
      rw [hAt] at hAt'
      obtain rfl := some.inj hAt'
      exact hEntry
  · constructor
    · intro hEntry
      have hFree := hTables.getD.2 n
      rw [← hEntries, hEntry] at hFree
      exact nomatch hFree
    · rintro ⟨u, hAt, -⟩
      rw [hNone] at hAt
      exact nomatch hAt

theorem Registered.not_activeAt (o : T) (k : Nat) : ¬ ActiveAt s mid tab e o k := by
  intro hActive
  have hEntry := (hNew.base_iff hTables e o k).mpr hActive
  have hFree := hNew.free
  rw [hEntry] at hFree
  exact nomatch hFree

/- One entry more is active. -/
theorem Registered.activeAt
    (m b n : Nat) (o : T) (k : Nat) :
    ActiveAt s' m b n o k ↔
      (m = mid ∧ b = tab ∧ n = e ∧ o = t ∧
        k = advance (base.entries e).generation) ∨
      ActiveAt s m b n o k := by
  by_cases hPlace : m = mid ∧ b = tab
  · rcases hPlace with ⟨rfl, rfl⟩
    have hAt : s'.tableAt m b = some table := by
      rw [hNew.tableAt, if_pos ⟨rfl, rfl⟩]
    have hIff : ActiveAt s' m b n o k ↔ table.entries n = ⟨.target o, true, k⟩ := by
      constructor
      · rintro ⟨u, hAt', hEntry⟩
        rw [hAt] at hAt'
        obtain rfl := some.inj hAt'
        exact hEntry
      · intro hEntry
        exact ⟨table, hAt, hEntry⟩
    rw [hIff, hNew.entries]
    by_cases hEntry : n = e
    · subst hEntry
      rw [update_self]
      have hNot := hNew.not_activeAt hTables o k
      rw [Entry.mk.injEq, Slot.target.injEq]
      constructor
      · rintro ⟨rfl, -, rfl⟩
        exact Or.inl ⟨rfl, rfl, rfl, rfl, rfl⟩
      · rintro (⟨-, -, -, rfl, rfl⟩ | hActive)
        · exact ⟨rfl, rfl, rfl⟩
        · exact absurd hActive hNot
    · rw [update_of_ne hEntry, hNew.base_iff hTables]
      tauto
  · have hAt : s'.tableAt m b = s.tableAt m b := by
      rw [hNew.tableAt, if_neg hPlace]
    unfold ActiveAt
    rw [hAt]
    tauto

end

end

end

---
-- Lookup and Unregistration
---

/- The table index of a word is inside of the mid table. -/
def Inside (s : Memory T) (safe : Nat) : Prop :=
  tabOf safe < maxTableId ∨ s.idsTables (midOf safe) = none

/- A word tells an active entry. -/
def Tells (s : Memory T) (safe : Nat) (t : T) : Prop :=
  ActiveAt s (midOf safe) (tabOf safe) (entryOf safe) t
    (generationOf safe)

/- An id tells the entry that it was composed of. -/
theorem InRange.tells (hRange : InRange mid tab e g) (t : T) :
    Tells s (compose mid tab e g) t ↔ ActiveAt s mid tab e t g := by
  unfold Tells
  rw [hRange.midOf_eq, hRange.tabOf_eq, hRange.entryOf_eq, hRange.generationOf_eq]

theorem InRange.inside (s : Memory T) (hRange : InRange mid tab e g) :
    Inside s (compose mid tab e g) := by
  refine Or.inl ?_
  rw [hRange.tabOf_eq]
  exact hRange.tab

/- Exactly the words inside of the mid tables can be read. -/
theorem entryGet_isSome (s : Memory T) (safe : Nat) : (entryGet s safe).isSome ↔ Inside s safe := by
  unfold Inside entryGet
  cases hRow : s.idsTables (midOf safe) with
  | none => simp
  | some row =>
    dsimp only
    by_cases hTab : maxTableId ≤ tabOf safe
    · rw [if_pos hTab]
      simpa using hTab
    · rw [if_neg hTab]
      have hLess := Nat.lt_of_not_le hTab
      cases row (tabOf safe) with
      | none => simpa using hLess
      | some table =>
        dsimp only
        split
        · split <;> simpa using hLess
        · simpa using hLess

theorem inside_zero (s : Memory T) : Inside s 0 := Or.inl (by decide)

theorem get_isSome (s : Memory T) (safe : Nat) : (get s safe).isSome ↔ Inside s safe := by
  unfold get
  by_cases hZero : safe = 0
  · subst hZero
    simp [inside_zero]
  · rw [if_neg hZero, ← entryGet_isSome]
    rcases entryGet s safe with - | - | p <;> simp

theorem unregister_isSome (s : Memory T) (safe : Nat) :
    (unregister s safe).isSome ↔ Inside s safe := by
  unfold unregister
  by_cases hZero : safe = 0
  · subst hZero
    simp [inside_zero]
  · rw [if_neg hZero, ← entryGet_isSome]
    rcases entryGet s safe with - | - | ⟨table, entry⟩
    · simp
    · simp
    · dsimp only [bind_eq_bind, bind_some]
      split <;> simp

variable {safe : Nat}

section

variable (hTables : Tables s)

include hTables

/- What a word that tells an active entry gives -/
theorem entryGet_of_tells {t : T}
    (hTells : Tells s safe t) :
    ∃ table, entryGet s safe = some (some (table,
      ⟨.target t, true, generationOf safe⟩)) ∧
      s.tableAt (midOf safe) (tabOf safe) = some table ∧
      table.entries (entryOf safe) = ⟨.target t, true, generationOf safe⟩ := by
  have hRange := hTables.inRange hTells
  rcases hTells with ⟨table, hAt, hEntry⟩
  refine ⟨table, ?_, hAt, hEntry⟩
  unfold Memory.tableAt at hAt
  rw [bind_eq_some_iff] at hAt
  rcases hAt with ⟨row, hRow, hAt⟩
  have hTab : ¬ maxTableId ≤ tabOf safe := Nat.not_le.mpr hRange.tab
  have hLess : entryOf safe < maxEntryId := hRange.entry
  unfold entryGet
  rw [hRow]
  dsimp only
  rw [if_neg hTab, hAt]
  dsimp only
  rw [if_pos hLess, hEntry]
  exact if_pos ⟨rfl, rfl⟩

/- The other words give nothing. -/
theorem entryGet_of_not_tells
    (hInside : Inside s safe) (hNot : ∀ t, ¬ Tells s safe t) : entryGet s safe = some none := by
  rcases isSome_iff_exists.mp ((entryGet_isSome s safe).mpr hInside) with ⟨o, hGet⟩
  rw [hGet]
  cases o with
  | none => rfl
  | some p =>
    exfalso
    unfold entryGet at hGet
    split at hGet
    case h_1 => exact nomatch hGet
    case h_2 row hRow =>
      by_cases hTab : maxTableId ≤ tabOf safe
      · rw [if_pos hTab] at hGet
        exact nomatch hGet
      · rw [if_neg hTab] at hGet
        split at hGet
        case h_1 => exact nomatch hGet
        case h_2 table hAt =>
          by_cases hEntry : entryOf safe < maxEntryId
          · rw [if_pos hEntry] at hGet
            dsimp only at hGet
            split at hGet
            case isTrue hBoth =>
              have hHere : s.tableAt (midOf safe) (tabOf safe) = some table := by
                unfold Memory.tableAt
                rw [hRow]
                exact hAt
              have hOk := hTables.ok _ _ table hHere
              rcases hOk.entry_eq hBoth.1 with ⟨t, hSame⟩
              rw [hBoth.2] at hSame
              exact hNot t ⟨table, hHere, hSame⟩
            case isFalse => exact nomatch some.inj hGet
          · rw [if_neg hEntry] at hGet
            exact nomatch some.inj hGet

/- 0 is the id of no entry. -/
theorem Tables.not_tells_zero (t : T) : ¬ Tells s 0 t := by
  intro hTells
  exact absurd (hTables.inRange hTells).pos (Nat.lt_irrefl 0)

theorem get_of_tells {t : T} (hTells : Tells s safe t) : get s safe = some (some (.target t)) := by
  have hNe : safe ≠ 0 := by
    rintro rfl
    exact hTables.not_tells_zero t hTells
  rcases entryGet_of_tells hTables hTells with ⟨table, hGet, -, -⟩
  unfold get
  rw [if_neg hNe, hGet]
  rfl

theorem get_of_not_tells
    (hInside : Inside s safe) (hNot : ∀ t, ¬ Tells s safe t) : get s safe = some none := by
  unfold get
  rw [entryGet_of_not_tells hTables hInside hNot]
  split <;> rfl

end

/- From a state to one with an entry in the trash. -/
structure Ended (s s' : Memory T) (mid tab e : Nat) (table : Table T) : Prop where
  before : s.tableAt mid tab = some table
  active : (table.entries e).active = true
  other :
    ∀ m b, ¬ (m = mid ∧ b = tab) →
      s'.tableAt m b = s.tableAt m b
  after :
    s'.tableAt mid tab = some (table.recycle e) ∨
      (s'.tableAt mid tab = none ∧
        ∀ n, ((table.recycle e).entries n).active = false)
  spare :
    ∀ u, s'.emptyTable = some u →
      s.emptyTable = some u ∨
        (u = table.recycle e ∧
          ∀ n, ((table.recycle e).entries n).active = false)

/- The entry of a word is put in the trash. -/
theorem unregister_of_tells {t : T} (hTables : Tables s)
    (hTells : Tells s safe t) :
    ∃ s' table, unregister s safe = some s' ∧ Ended s s' (midOf safe) (tabOf safe) (entryOf safe)
      table := by
  have hNe : safe ≠ 0 := by
    rintro rfl
    exact hTables.not_tells_zero t hTells
  have hRange := hTables.inRange hTells
  rcases entryGet_of_tells hTables hTells with ⟨table, hGet, hAt, hEntry⟩
  have hActive : (table.entries (entryOf safe)).active = true := by
    rw [hEntry]
  have hOk := (hTables.ok _ _ table hAt).recycle hActive
  have hPartial := hTables.partialId _ _ table hAt
  rcases row_of_tableAt hAt with ⟨row, hRow⟩
  have hSet := tableAt_setTable (tabOf safe) (some (table.recycle (entryOf safe))) hRow
  by_cases hLast : entryOf safe = maxEntryId - 1 ∧
      (table.recycle (entryOf safe)).idle (entryOf safe) = true
  · have hIdle := hLast.2
    rw [hLast.1] at hIdle
    rw [hLast.1] at hOk
    have hNone := hOk.inactive_of_idle hIdle
    rw [← hLast.1] at hNone
    refine ⟨drop (s.setTable (midOf safe) (tabOf safe) (some (table.recycle (entryOf safe))))
      (table.recycle (entryOf safe)), table, ?_, ?_⟩
    · rw [unregister, if_neg hNe, hGet]
      exact if_pos hLast
    · have hPlace : midOf (table.recycle (entryOf safe)).partialId =
          midOf safe ∧ tabOf (table.recycle (entryOf safe)).partialId = tabOf safe := by
        change midOf table.partialId = _ ∧ tabOf table.partialId = _
        rw [hPartial, midOf_composePartial hRange.mid, tabOf_composePartial hRange.tab]
        exact ⟨rfl, rfl⟩
      have hRow' : (s.setTable (midOf safe) (tabOf safe)
          (some (table.recycle (entryOf safe)))).idsTables
          (midOf safe) = some (update row (tabOf safe) (some (table.recycle (entryOf safe)))) := by
        unfold Memory.setTable
        dsimp only
        rw [update_self, hRow]
        rfl
      have hDrop := tableAt_setTable (tabOf safe) none hRow'
      refine ⟨hAt, hActive, ?_, Or.inr ⟨?_, hNone⟩, ?_⟩
      · intro m b hOther
        unfold drop
        rw [hPlace.1, hPlace.2]
        change Memory.tableAt (Memory.setTable _ _ _ none) m b = _
        rw [hDrop, if_neg hOther, hSet, if_neg hOther]
      · unfold drop
        rw [hPlace.1, hPlace.2]
        change Memory.tableAt (Memory.setTable _ _ _ none) _ _ = _
        rw [hDrop, if_pos ⟨rfl, rfl⟩]
      · intro u hSpare
        dsimp only [drop, Memory.setTable] at hSpare
        cases hBefore : s.emptyTable with
        | none =>
          rw [hBefore] at hSpare
          exact Or.inr ⟨(some.inj hSpare).symm, hNone⟩
        | some spare =>
          rw [hBefore] at hSpare
          exact Or.inl hSpare
  · refine ⟨s.setTable (midOf safe) (tabOf safe)
      (some (table.recycle (entryOf safe))), table, ?_, ?_⟩
    · rw [unregister, if_neg hNe, hGet]
      exact if_neg hLast
    · refine ⟨hAt, hActive, ?_, Or.inl ?_, fun u hSpare => Or.inl hSpare⟩
      · intro m b hOther
        rw [hSet, if_neg hOther]
      · rw [hSet, if_pos ⟨rfl, rfl⟩]

theorem unregister_of_not_tells (hTables : Tables s)
    (hInside : Inside s safe) (hNot : ∀ t, ¬ Tells s safe t) : unregister s safe = some s := by
  unfold unregister
  rw [entryGet_of_not_tells hTables hInside hNot]
  split <;> rfl

section

variable {s s' : Memory T} {mid tab e : Nat} {table : Table T}

theorem Ended.tables (hEnd : Ended s s' mid tab e table) (hTables : Tables s) : Tables s' := by
  have hOk := (hTables.ok mid tab table hEnd.before).recycle hEnd.active
  have hCases : ∀ m b u, s'.tableAt m b = some u →
      (m = mid ∧ b = tab ∧ u = table.recycle e) ∨ s.tableAt m b = some u := by
    intro m b u hAt
    by_cases hPlace : m = mid ∧ b = tab
    · rcases hPlace with ⟨rfl, rfl⟩
      rcases hEnd.after with hAfter | ⟨hNone, -⟩
      · rw [hAfter] at hAt
        exact Or.inl ⟨rfl, rfl, (some.inj hAt).symm⟩
      · rw [hNone] at hAt
        exact nomatch hAt
    · rw [hEnd.other m b hPlace] at hAt
      exact Or.inr hAt
  constructor
  · intro m b u hAt
    rcases hCases m b u hAt with ⟨rfl, -, -⟩ | hAt
    · exact hTables.mid_lt m tab table hEnd.before
    · exact hTables.mid_lt m b u hAt
  · intro m b u hAt
    rcases hCases m b u hAt with ⟨-, rfl, -⟩ | hAt
    · exact hTables.tab_lt mid b table hEnd.before
    · exact hTables.tab_lt m b u hAt
  · intro m b u hAt
    rcases hCases m b u hAt with ⟨-, -, rfl⟩ | hAt
    · exact hOk
    · exact hTables.ok m b u hAt
  · intro m b u hAt
    rcases hCases m b u hAt with ⟨rfl, rfl, rfl⟩ | hAt
    · exact hTables.partialId m b table hEnd.before
    · exact hTables.partialId m b u hAt
  · intro u hSpare
    rcases hEnd.spare u hSpare with hBefore | ⟨rfl, -⟩
    · exact hTables.spare u hBefore
    · exact hOk
  · intro u hSpare
    rcases hEnd.spare u hSpare with hBefore | ⟨rfl, hNone⟩
    · exact hTables.empty u hBefore
    · exact hNone

/- Other entries keep what they stand for. -/
theorem Ended.activeAt (hEnd : Ended s s' mid tab e table)
    (m b n : Nat) (o : T) (k : Nat) :
    ActiveAt s' m b n o k ↔ ActiveAt s m b n o k ∧ ¬ (m = mid ∧ b = tab ∧ n = e) := by
  by_cases hPlace : m = mid ∧ b = tab
  · rcases hPlace with ⟨rfl, rfl⟩
    have hBefore : ActiveAt s m b n o k ↔ table.entries n = ⟨.target o, true, k⟩ := by
      constructor
      · rintro ⟨u, hAt, hEntry⟩
        rw [hEnd.before] at hAt
        obtain rfl := some.inj hAt
        exact hEntry
      · intro hEntry
        exact ⟨table, hEnd.before, hEntry⟩
    have hRecycled :
        (table.recycle e).entries n = ⟨.target o, true, k⟩ ↔
          table.entries n = ⟨.target o, true, k⟩ ∧ n ≠ e := by
      rw [Table.entries_recycle]
      by_cases hSame : n = e
      · subst hSame
        simp
      · rw [update_of_ne hSame]
        tauto
    rcases hEnd.after with hAfter | ⟨hNone, hIdle⟩
    · have hAt : ActiveAt s' m b n o k ↔ (table.recycle e).entries n = ⟨.target o, true, k⟩ := by
        constructor
        · rintro ⟨u, hAt, hEntry⟩
          rw [hAfter] at hAt
          obtain rfl := some.inj hAt
          exact hEntry
        · intro hEntry
          exact ⟨_, hAfter, hEntry⟩
      rw [hAt, hRecycled, hBefore]
      tauto
    · constructor
      · rintro ⟨u, hAt, -⟩
        rw [hNone] at hAt
        exact nomatch hAt
      · rintro ⟨hActive, hOther⟩
        have hEntry := hRecycled.mpr ⟨hBefore.mp hActive, fun hSame => hOther ⟨rfl, rfl, hSame⟩⟩
        have hInactive := hIdle n
        rw [hEntry] at hInactive
        exact nomatch hInactive
  · unfold ActiveAt
    rw [hEnd.other m b hPlace]
    tauto

end

end Efl.Eina.Safepointer
