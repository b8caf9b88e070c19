import Efl.Eo.IdTables

/-
  The tables of a domain, and the entries that a search gives.

  Main declarations:
    * `TableData.tableAt`, `ActiveAt`
    * `Tables`, what all tables of a domain keep
    * `Placed.tables`, `Placed.activeAt`
    * `searchTables_spec`
-/

---
-- Places
---

namespace Efl.Eo.Ids

section

variable {O T : Type}

/- `TABLE_FROM_IDS`, if there is a mid table -/
def TableData.tableAt (s : TableData O T) (mid tab : Nat) : Option T :=
  (s.idsTables mid).bind fun row => row tab

/- An object is in the entry, with a generation. -/
structure Entry.Holds (entry : Entry O) (obj : O) (g : Nat) : Prop where
  active : entry.active = true
  ptr : entry.ptr = some obj
  generation : entry.generation = g

/- What is in an entry of the tables. -/
def ActiveAt (s : TableData O T) (mid tab e : Nat) (obj : O) (g : Nat) : Prop :=
  ∃ t, s.tableAt mid tab = some t ∧
    ((s.heap.node t).entries e).Holds obj g

/- Active entries have an object and a generation. -/
def Filled (table : Table O) : Prop :=
  ∀ e, (table.entries e).active = true →
    ∃ obj g, (table.entries e).Holds obj g ∧
      g < maxGenerations

/- The tables of a domain are in order. -/
structure Tables (s : TableData O T) : Prop where
  range :
    ∀ mid tab t, s.tableAt mid tab = some t →
      mid < maxMidTableId ∧ tab < maxTableId
  live :
    ∀ mid tab t, s.tableAt mid tab = some t →
      t ∈ s.heap.live
  once :
    ∀ mid tab mid' tab' t,
      s.tableAt mid tab = some t →
      s.tableAt mid' tab' = some t →
        mid = mid' ∧ tab = tab'
  ok :
    ∀ mid tab t, s.tableAt mid tab = some t →
      TableOk (s.heap.node t)
  partialId :
    ∀ mid tab t, s.tableAt mid tab = some t →
      (s.heap.node t).partialId = composePartial mid tab
  filled :
    ∀ mid tab t, s.tableAt mid tab = some t →
      Filled (s.heap.node t)
  current :
    ∀ t, s.currentTable = some t →
      ∃ mid tab, s.tableAt mid tab = some t
  empty :
    ∀ t, s.emptyTable = some t →
      t ∈ s.heap.live ∧
        (∀ mid tab, s.tableAt mid tab ≠ some t) ∧
        ∀ e, ((s.heap.node t).entries e).active = false

/- A place tells what is in it. -/
theorem ActiveAt.unique {s : TableData O T} {mid tab e : Nat}
    {obj obj' : O} {g g' : Nat} (hLeft : ActiveAt s mid tab e obj g)
    (hRight : ActiveAt s mid tab e obj' g') : obj = obj' ∧ g = g' := by
  rcases hLeft with ⟨t, hTable, hHolds⟩
  rcases hRight with ⟨t', hTable', hHolds'⟩
  rw [hTable] at hTable'
  obtain rfl := Option.some.inj hTable'
  have hPtr := hHolds.ptr.symm.trans hHolds'.ptr
  exact ⟨Option.some.inj hPtr, hHolds.generation.symm.trans hHolds'.generation⟩

/- The numbers of an entry with an object are in range. -/
theorem Tables.inRange {s : TableData O T} {mid tab e : Nat} {obj : O}
    {g : Nat} (hTables : Tables s) (hDomain : s.domain < 4)
    (hActive : ActiveAt s mid tab e obj g) : InRange mid tab e s.domain g := by
  rcases hActive with ⟨t, hTable, hHolds⟩
  rcases hTables.range mid tab t hTable with ⟨hMid, hTab⟩
  have hOk := hTables.ok mid tab t hTable
  have hLt := hOk.lt_of_active hHolds.active
  have hStart := hOk.start_le
  rcases hTables.filled mid tab t hTable e hHolds.active with ⟨obj', g', hHolds', hGen⟩
  have hSame := hHolds'.generation.symm.trans hHolds.generation
  exact ⟨hMid, hTab, by omega, hDomain, hSame ▸ hGen⟩

/-
  From a state to one with another content of a table, or with
  one table more, at a place.
-/
structure Placed (s s' : TableData O T) (mid tab : Nat) (t : T) : Prop where
  mid_lt : mid < maxMidTableId
  tab_lt : tab < maxTableId
  live : t ∈ s'.heap.live
  keeps : ∀ u ∈ s.heap.live, u ∈ s'.heap.live
  node : ∀ u ≠ t, s'.heap.node u = s.heap.node u
  tableAt :
    ∀ m b, s'.tableAt m b =
      if m = mid ∧ b = tab then some t else s.tableAt m b
  other :
    ∀ m b, s.tableAt m b = some t → m = mid ∧ b = tab
  before : ∀ u, s.tableAt mid tab = some u → u = t
  partialId :
    (s'.heap.node t).partialId = composePartial mid tab
  empty :
    ∀ u, s'.emptyTable = some u →
      s.emptyTable = some u ∧ u ≠ t
  current :
    ∀ u, s'.currentTable = some u →
      u = t ∨ s.currentTable = some u

section

variable {s s' : TableData O T} {mid tab : Nat} {t : T}

section

variable (hPlaced : Placed s s' mid tab t)

include hPlaced

theorem Placed.tableAt_self : s'.tableAt mid tab = some t := by
  rw [hPlaced.tableAt, if_pos ⟨rfl, rfl⟩]

/- A table is the one of the place, or it was there before. -/
theorem Placed.cases
    {m b : Nat} {u : T} (hAt : s'.tableAt m b = some u) :
    (m = mid ∧ b = tab ∧ u = t) ∨ (¬ (m = mid ∧ b = tab) ∧ u ≠ t ∧ s.tableAt m b = some u) := by
  rw [hPlaced.tableAt] at hAt
  split at hAt
  case isTrue hPlace =>
    exact Or.inl ⟨hPlace.1, hPlace.2, (Option.some.inj hAt).symm⟩
  case isFalse hPlace =>
    refine Or.inr ⟨hPlace, ?_, hAt⟩
    rintro rfl
    exact hPlace (hPlaced.other m b hAt)

/- The tables are in order if the one of the place is. -/
theorem Placed.tables (hTables : Tables s) (hOk : TableOk (s'.heap.node t))
    (hFilled : Filled (s'.heap.node t)) : Tables s' := by
  constructor
  · intro m b u hAt
    rcases hPlaced.cases hAt with ⟨rfl, rfl, rfl⟩ | ⟨-, -, hAt⟩
    · exact ⟨hPlaced.mid_lt, hPlaced.tab_lt⟩
    · exact hTables.range m b u hAt
  · intro m b u hAt
    rcases hPlaced.cases hAt with ⟨rfl, rfl, rfl⟩ | ⟨-, -, hAt⟩
    · exact hPlaced.live
    · exact hPlaced.keeps u (hTables.live m b u hAt)
  · intro m b m' b' u hAt hAt'
    rcases hPlaced.cases hAt with ⟨rfl, rfl, hU⟩ | ⟨-, hNe, hAt⟩
    · rcases hPlaced.cases hAt' with ⟨rfl, rfl, -⟩ | ⟨-, hNe, -⟩
      · exact ⟨rfl, rfl⟩
      · exact absurd hU hNe
    · rcases hPlaced.cases hAt' with ⟨-, -, hU⟩ | ⟨-, -, hAt'⟩
      · exact absurd hU hNe
      · exact hTables.once m b m' b' u hAt hAt'
  · intro m b u hAt
    rcases hPlaced.cases hAt with ⟨rfl, rfl, rfl⟩ | ⟨-, hNe, hAt⟩
    · exact hOk
    · rw [hPlaced.node u hNe]
      exact hTables.ok m b u hAt
  · intro m b u hAt
    rcases hPlaced.cases hAt with ⟨rfl, rfl, rfl⟩ | ⟨-, hNe, hAt⟩
    · exact hPlaced.partialId
    · rw [hPlaced.node u hNe]
      exact hTables.partialId m b u hAt
  · intro m b u hAt
    rcases hPlaced.cases hAt with ⟨rfl, rfl, rfl⟩ | ⟨-, hNe, hAt⟩
    · exact hFilled
    · rw [hPlaced.node u hNe]
      exact hTables.filled m b u hAt
  · intro u hCurrent
    rcases hPlaced.current u hCurrent with rfl | hCurrent
    · exact ⟨mid, tab, hPlaced.tableAt_self⟩
    · rcases hTables.current u hCurrent with ⟨m, b, hAt⟩
      refine ⟨m, b, ?_⟩
      rw [hPlaced.tableAt]
      split
      case isTrue hPlace =>
        rcases hPlace with ⟨rfl, rfl⟩
        rw [hPlaced.before u hAt]
      case isFalse hPlace => exact hAt
  · intro u hEmpty
    rcases hPlaced.empty u hEmpty with ⟨hEmpty, hNe⟩
    rcases hTables.empty u hEmpty with ⟨hLive, hNowhere, hInactive⟩
    refine ⟨hPlaced.keeps u hLive, ?_, ?_⟩
    · intro m b hAt
      rcases hPlaced.cases hAt with ⟨-, -, hU⟩ | ⟨-, -, hAt⟩
      · exact hNe hU
      · exact hNowhere m b hAt
    · rw [hPlaced.node u hNe]
      exact hInactive

/- Other places hold what they held. -/
theorem Placed.activeAt
    (m b n : Nat) (o : O) (k : Nat) :
    ActiveAt s' m b n o k ↔
      if m = mid ∧ b = tab then
        ((s'.heap.node t).entries n).Holds o k
      else
        ActiveAt s m b n o k := by
  constructor
  · rintro ⟨u, hAt, hHolds⟩
    rcases hPlaced.cases hAt with ⟨rfl, rfl, rfl⟩ | ⟨hPlace, hNe, hAt⟩
    · rw [if_pos ⟨rfl, rfl⟩]
      exact hHolds
    · rw [if_neg hPlace]
      rw [hPlaced.node u hNe] at hHolds
      exact ⟨u, hAt, hHolds⟩
  · intro hActive
    split at hActive
    case isTrue hPlace =>
      rcases hPlace with ⟨rfl, rfl⟩
      exact ⟨t, hPlaced.tableAt_self, hActive⟩
    case isFalse hPlace =>
      rcases hActive with ⟨u, hAt, hHolds⟩
      refine ⟨u, ?_, ?_⟩
      · rw [hPlaced.tableAt, if_neg hPlace]
        exact hAt
      · rw [hPlaced.node u]
        · exact hHolds
        · rintro rfl
          exact hPlace (hPlaced.other m b hAt)

end

end

end

---
-- Entries That Can Be Filled
---

open Option Function
variable {O T : Type} [DecidableEq T]

/- The state with an object in an entry. -/
def TableData.filled (s : TableData O T) (t : T) (e : Nat) (obj : O) (g : Nat) : TableData O T :=
  { s with
    heap := s.heap.set t ((s.heap.node t).fill e obj g)
    generation := g }

/- What the allocation of an entry does not change. -/
structure SameRest (s s' : TableData O T) : Prop where
  domain : s'.domain = s.domain
  shared : s'.shared = s.shared
  cacheId : s'.cacheId = s.cacheId
  cacheObject : s'.cacheObject = s.cacheObject
  generation : s'.generation = s.generation

/- From a state to one in which an entry can be filled. -/
structure Offer (s s' : TableData O T) (t : T) (mid tab e : Nat) : Prop where
  live : t ∈ s'.heap.live
  partialId :
    (s'.heap.node t).partialId = composePartial mid tab
  free : ∀ o k, ¬ ActiveAt s mid tab e o k
  tables :
    ∀ obj g, g < maxGenerations →
      Tables (s'.filled t e obj g)
  active :
    ∀ obj g m b n o k,
      ActiveAt (s'.filled t e obj g) m b n o k ↔
        ActiveAt s m b n o k ∨
          (m = mid ∧ b = tab ∧ n = e ∧ o = obj ∧ k = g)
  rest : SameRest s s'

theorem Table.holds_fill (table : Table O) (e : Nat) (obj : O)
    (g n : Nat) (o : O) (k : Nat) :
    ((table.fill e obj g).entries n).Holds o k ↔
      if n = e then o = obj ∧ k = g
      else (table.entries n).Holds o k := by
  unfold fill setEntry
  dsimp only
  by_cases hSame : n = e
  · subst hSame
    rw [if_pos rfl, update_self]
    constructor
    · rintro ⟨-, hPtr, hGen⟩
      exact ⟨(some.inj hPtr).symm, hGen.symm⟩
    · rintro ⟨rfl, rfl⟩
      exact ⟨rfl, rfl, rfl⟩
  · rw [if_neg hSame, update_of_ne hSame]

theorem Filled.fill {table : Table O} (hFilled : Filled table)
    (e : Nat) (obj : O) {g : Nat} (hGen : g < maxGenerations) : Filled (table.fill e obj g) := by
  intro n hActive
  by_cases hSame : n = e
  · refine ⟨obj, g, ?_, hGen⟩
    rw [Table.holds_fill, if_pos hSame]
    exact ⟨rfl, rfl⟩
  · have hBefore : (table.entries n).active = true := by
      by_contra hNot
      have hFree := (Table.active_fill table e obj g n).mpr ⟨hSame, Bool.eq_false_iff.mpr hNot⟩
      rw [hFree] at hActive
      exact nomatch hActive
    rcases hFilled n hBefore with ⟨o, k, hHolds, hLt⟩
    refine ⟨o, k, ?_, hLt⟩
    rw [Table.holds_fill, if_neg hSame]
    exact hHolds

variable {s s' : TableData O T} {mid tab : Nat}

/- The place stays the same when an entry is filled. -/
theorem Placed.filled {t : T} (hPlaced : Placed s s' mid tab t)
    (e : Nat) (obj : O) (g : Nat) : Placed s (s'.filled t e obj g) mid tab t where
  mid_lt := hPlaced.mid_lt
  tab_lt := hPlaced.tab_lt
  live := hPlaced.live
  keeps := hPlaced.keeps
  node u hNe := by
    rw [← hPlaced.node u hNe]
    exact update_of_ne hNe _ _
  tableAt := hPlaced.tableAt
  other := hPlaced.other
  before := hPlaced.before
  partialId := by
    rw [← hPlaced.partialId]
    unfold TableData.filled
    dsimp only
    rw [Heap.node_set, update_self]
    rfl
  empty := hPlaced.empty
  current := hPlaced.current

variable {e : Nat}

/- A free entry of the table at a place can be filled. -/
theorem Placed.offer {t : T} (hPlaced : Placed s s' mid tab t) (hTables : Tables s)
    (hInactive : ((s'.heap.node t).entries e).active = false)
    (hSame : ∀ n o k, ((s'.heap.node t).entries n).Holds o k ↔
      ActiveAt s mid tab n o k) (hFilled : Filled (s'.heap.node t))
    (hOk : ∀ obj g, TableOk ((s'.heap.node t).fill e obj g))
    (hRest : SameRest s s') : Offer s s' t mid tab e where
  live := hPlaced.live
  partialId := hPlaced.partialId
  free o k hActive := by
    have hHolds := (hSame e o k).mpr hActive
    rw [hHolds.active] at hInactive
    exact nomatch hInactive
  tables obj g hGen := by
    have hNode : (s'.filled t e obj g).heap.node t =
        (s'.heap.node t).fill e obj g := update_self _ _ _
    apply (hPlaced.filled e obj g).tables hTables
    · rw [hNode]
      exact hOk obj g
    · rw [hNode]
      exact hFilled.fill e obj hGen
  active obj g m b n o k := by
    have hNode : (s'.filled t e obj g).heap.node t =
        (s'.heap.node t).fill e obj g := update_self _ _ _
    have hFree : ∀ o k, ¬ ActiveAt s mid tab e o k := by
      intro o k hActive
      rw [((hSame e o k).mpr hActive).active] at hInactive
      exact nomatch hInactive
    rw [(hPlaced.filled e obj g).activeAt, hNode, Table.holds_fill, hSame]
    by_cases hPlace : m = mid ∧ b = tab
    · rw [if_pos hPlace]
      rcases hPlace with ⟨rfl, rfl⟩
      by_cases hEntry : n = e
      · subst hEntry
        rw [if_pos rfl]
        tauto
      · rw [if_neg hEntry]
        tauto
    · rw [if_neg hPlace]
      tauto
  rest := hRest

/- The entry that a table of the domain gives. -/
theorem offer_of_available {t : T} {table : Table O}
    (hTables : Tables s) (hAt : s.tableAt mid tab = some t)
    (hGet : getAvailableEntry (s.heap.node t) = some (table, e)) :
    Offer s
      { s with
        heap := s.heap.set t table
        currentTable := some t } t mid tab e := by
  have hNode : (s.heap.set t table).node t = table := update_self _ _ _
  have hRange := hTables.range mid tab t hAt
  have hLive := hTables.live mid tab t hAt
  have hFilled := hTables.filled mid tab t hAt
  rcases getAvailableEntry_spec (hTables.ok mid tab t hAt) hGet
    with ⟨hEntry, hInactive, hEntries, hPartial, hOk⟩
  have hPlaced : Placed s
      { s with
        heap := s.heap.set t table
        currentTable := some t } mid tab t := by
    refine ⟨hRange.1, hRange.2, hLive, fun u hu => hu, fun u hNe =>
      update_of_ne hNe _ _, ?_, ?_, ?_, ?_, ?_, ?_⟩
    · intro m b
      split
      case isTrue hPlace =>
        rcases hPlace with ⟨rfl, rfl⟩
        exact hAt
      case isFalse => rfl
    · intro m b hAt'
      exact hTables.once m b mid tab t hAt' hAt
    · intro u hAt'
      rw [hAt] at hAt'
      exact (some.inj hAt').symm
    · rw [hNode, hPartial]
      exact hTables.partialId mid tab t hAt
    · intro u hEmpty
      refine ⟨hEmpty, ?_⟩
      rintro rfl
      exact (hTables.empty u hEmpty).2.1 mid tab hAt
    · intro u hCurrent
      exact Or.inl (some.inj hCurrent).symm
  apply hPlaced.offer hTables
  · rw [hNode, hEntries]
    exact hInactive
  · intro n o k
    rw [hNode, hEntries]
    constructor
    · intro hHolds
      exact ⟨t, hAt, hHolds⟩
    · rintro ⟨u, hAt', hHolds⟩
      rw [hAt] at hAt'
      obtain rfl := some.inj hAt'
      exact hHolds
  · rw [hNode]
    unfold Filled
    rw [hEntries]
    exact hFilled
  · rw [hNode]
    exact hOk
  · exact ⟨rfl, rfl, rfl, rfl, rfl⟩

---
-- Search
---

variable {s₁ : TableData O T}

omit [DecidableEq T] in
theorem SameRest.trans {s₂ s₃ : TableData O T}
    (hFirst : SameRest s₁ s₂) (hSecond : SameRest s₂ s₃) : SameRest s₁ s₃ :=
  ⟨hSecond.domain.trans hFirst.domain, hSecond.shared.trans hFirst.shared,
    hSecond.cacheId.trans hFirst.cacheId, hSecond.cacheObject.trans hFirst.cacheObject,
    hSecond.generation.trans hFirst.generation⟩

variable {row : Nat → Option T}

omit [DecidableEq T] in
theorem tableAt_setTable (hRow : s.idsTables mid = some row)
    (tab : Nat) (x : Option T) (m b : Nat) :
    (s.setTable mid tab x).tableAt m b =
      if m = mid ∧ b = tab then x else s.tableAt m b := by
  unfold TableData.tableAt TableData.setTable
  dsimp only
  by_cases hMid : m = mid
  · subst hMid
    rw [update_self, hRow]
    by_cases hTab : b = tab
    · subst hTab
      rw [if_pos ⟨rfl, rfl⟩]
      exact update_self _ _ _
    · rw [if_neg fun hBoth => hTab hBoth.2]
      exact update_of_ne hTab _ _
  · rw [update_of_ne hMid, if_neg fun hBoth => hMid hBoth.1]

/- An empty table that is at no place. -/
structure Obtained (s s' : TableData O T) (t : T) : Prop where
  live : t ∈ s'.heap.live
  keeps : ∀ u ∈ s.heap.live, u ∈ s'.heap.live
  node : ∀ u ≠ t, s'.heap.node u = s.heap.node u
  inactive :
    ∀ e, ((s'.heap.node t).entries e).active = false
  nowhere : ∀ m b, s.tableAt m b ≠ some t
  idsTables : s'.idsTables = s.idsTables
  empty :
    ∀ u, s'.emptyTable = some u →
      s.emptyTable = some u ∧ u ≠ t
  rest : SameRest s s'

/- The allocator does not give what is in use. -/
def Fresh (s : TableData O T) (memory : Memory T) : Prop :=
  ∀ t, memory.table = some t → t ∉ s.heap.live

variable {memory : Memory T}

section

variable (hTables : Tables s)

include hTables

theorem obtainTable_spec
    (hFresh : Fresh s memory) :
    (∃ s' t, obtainTable s memory = some (s', t) ∧ Obtained s s' t) ∨
    obtainTable s memory = none ∧ memory.table = none := by
  unfold obtainTable
  cases hEmpty : s.emptyTable with
  | some t =>
    rcases hTables.empty t hEmpty with ⟨hLive, hNowhere, hInactive⟩
    refine Or.inl ⟨_, t, rfl, hLive, fun u hu => hu, fun u _ => rfl,
      hInactive, hNowhere, rfl, ?_, ⟨rfl, rfl, rfl, rfl, rfl⟩⟩
    intro u hSome
    exact nomatch hSome
  | none =>
    cases hMemory : memory.table with
    | none => exact Or.inr ⟨rfl, rfl⟩
    | some t =>
      have hNew := hFresh t hMemory
      refine Or.inl ⟨_, t, rfl, Finset.mem_insert_self _ _, fun u hu => Finset.mem_insert_of_mem hu,
        fun u hNe => update_of_ne hNe _ _, ?_, ?_,
        rfl, ?_, ⟨rfl, rfl, rfl, rfl, rfl⟩⟩
      · intro e
        rw [Heap.node_alloc, update_self]
        rfl
      · intro m b hAt
        exact hNew (hTables.live m b t hAt)
      · intro u hSome
        exact nomatch hSome

/- A new table, put at a free place. -/
theorem offer_of_obtained {t : T} (hObtained : Obtained s s₁ t) (hMid : mid < maxMidTableId)
    (hTab : tab < maxTableId) (hRow : s.idsTables mid = some row)
    (hFree : row tab = none) :
    Offer s
      { ({ s₁ with
          heap := s₁.heap.set t ((s₁.heap.node t).init
            (composePartial mid tab)) }.setTable mid tab (some t)) with
        currentTable := some t } t mid tab 0 := by
  have hNone : s.tableAt mid tab = none := by
    unfold TableData.tableAt
    rw [hRow]
    exact hFree
  have hRow' : s₁.idsTables mid = some row := by
    rw [hObtained.idsTables, hRow]
  have hInactive : ∀ e, (((s₁.heap.node t).init
        (composePartial mid tab)).entries e).active = false := hObtained.inactive
  have hNode : (s₁.heap.set t ((s₁.heap.node t).init
      (composePartial mid tab))).node t =
      (s₁.heap.node t).init (composePartial mid tab) := update_self _ _ _
  have hPlaced : Placed s
      { ({ s₁ with
          heap := s₁.heap.set t ((s₁.heap.node t).init
              (composePartial mid tab)) }.setTable mid tab (some t)) with
        currentTable := some t } mid tab t := by
    refine ⟨hMid, hTab, hObtained.live, hObtained.keeps, ?_, ?_, ?_, ?_, ?_, hObtained.empty, ?_⟩
    · intro u hNe
      rw [← hObtained.node u hNe]
      exact update_of_ne hNe _ _
    · intro m b
      have hSet := tableAt_setTable hRow' tab (some t) m b
      unfold TableData.tableAt at hSet ⊢
      rw [← hObtained.idsTables]
      exact hSet
    · intro m b hAt
      exact absurd hAt (hObtained.nowhere m b)
    · intro u hAt
      rw [hNone] at hAt
      exact nomatch hAt
    · change ((s₁.heap.set t ((s₁.heap.node t).init (composePartial mid tab))).node t).partialId = _
      rw [hNode]
      rfl
    · intro u hCurrent
      exact Or.inl (some.inj hCurrent).symm
  have hEntry : ∀ e, (((s₁.heap.set t ((s₁.heap.node t).init
      (composePartial mid tab))).node t).entries e).active =
      false := by
    intro e
    rw [hNode]
    exact hInactive e
  apply hPlaced.offer hTables
  · exact hEntry 0
  · intro n o k
    constructor
    · intro hHolds
      exact nomatch (hEntry n).symm.trans hHolds.active
    · rintro ⟨u, hAt, -⟩
      rw [hNone] at hAt
      exact nomatch hAt
  · intro n hActive
    exact nomatch (hEntry n).symm.trans hActive
  · intro obj g
    change TableOk (((s₁.heap.set t ((s₁.heap.node t).init
      (composePartial mid tab))).node t).fill 0 obj g)
    rw [hNode]
    exact TableOk.init _ hObtained.inactive obj g
  · rcases hObtained.rest with ⟨hD, hS, hI, hO, hG⟩
    exact ⟨hD, hS, hI, hO, hG⟩

/- All entries of a place hold objects. -/
def Full (s : TableData O T) (mid tab : Nat) : Prop :=
  ∀ e, e < maxEntryId → ∃ obj g, ActiveAt s mid tab e obj g

omit [DecidableEq T] in
/- A table that gives no entry is full. -/
theorem full_of_available {t : T} (hAt : s.tableAt mid tab = some t)
    (hGet : getAvailableEntry (s.heap.node t) = none) : Full s mid tab := by
  intro e hEntry
  have hActive := active_of_getAvailableEntry (hTables.ok mid tab t hAt) hGet hEntry
  rcases hTables.filled mid tab t hAt e hActive with ⟨obj, g, hHolds, -⟩
  exact ⟨obj, g, t, hAt, hHolds⟩

/- One round of the search. -/
theorem tryTable_spec (hFresh : Fresh s memory)
    (hMid : mid < maxMidTableId) (hTab : tab < maxTableId)
    (hRow : s.idsTables mid = some row) :
    (tryTable s memory mid tab = some (s, none) ∧ Full s mid tab) ∨
    (∃ s' t e, tryTable s memory mid tab =
        some (s', some (t, e)) ∧
      Offer s s' t mid tab e) ∨
    (tryTable s memory mid tab = none ∧ memory.table = none) := by
  have hTableAt : s.tableAt mid tab = row tab := by
    unfold TableData.tableAt
    rw [hRow]
    rfl
  unfold tryTable
  cases hCell : row tab with
  | none =>
    rcases obtainTable_spec hTables hFresh with ⟨s₁, t, hObtain, hObtained⟩ | ⟨hNone, hMemory⟩
    · refine Or.inr (Or.inl ⟨_, t, 0, ?_, offer_of_obtained hTables hObtained hMid hTab hRow hCell⟩)
      simp [hRow, hCell, hObtain, Heap.modify_of_mem _ hObtained.live]
    · refine Or.inr (Or.inr ⟨?_, hMemory⟩)
      simp [hRow, hCell, hNone]
  | some t =>
    have hAt : s.tableAt mid tab = some t := by
      rw [hTableAt, hCell]
    have hLive := hTables.live mid tab t hAt
    cases hGet : getAvailableEntry (s.heap.node t) with
    | none =>
      refine Or.inl ⟨?_, full_of_available hTables hAt hGet⟩
      simp [hRow, hCell, Heap.read_of_mem hLive, hGet]
    | some found =>
      rcases found with ⟨table, e⟩
      refine Or.inr (Or.inl ⟨_, t, e, ?_, offer_of_available hTables hAt hGet⟩)
      simp [hRow, hCell, Heap.read_of_mem hLive, hGet, Heap.modify_of_mem _ hLive]

/- The search of a mid table. -/
theorem searchRow_spec (hFresh : Fresh s memory)
    (hMid : mid < maxMidTableId) (hRow : s.idsTables mid = some row)
    (n tab : Nat) (hBound : tab + n ≤ maxTableId) :
    (searchRow memory mid n tab s = some (s, none) ∧
      ∀ b, tab ≤ b → b < tab + n → Full s mid b) ∨
    (∃ s' t b e, searchRow memory mid n tab s =
        some (s', some (t, e)) ∧
      Offer s s' t mid b e) ∨
    (searchRow memory mid n tab s = none ∧ memory.table = none) := by
  induction n generalizing tab with
  | zero =>
    refine Or.inl ⟨rfl, fun b hLe hLt => ?_⟩
    omega
  | succ n ih =>
    unfold searchRow
    rcases tryTable_spec hTables hFresh hMid (show tab < maxTableId by omega) hRow with
      ⟨hTry, hFull⟩ | ⟨s', t, e, hTry, hOffer⟩ | ⟨hTry, hMemory⟩
    · have hNext : ∀ b, tab ≤ b →
          (∀ b, tab + 1 ≤ b → b < tab + 1 + n → Full s mid b) →
          b < tab + (n + 1) → Full s mid b := by
        intro b hLe hRest hLt
        by_cases hSame : b = tab
        · subst hSame
          exact hFull
        · exact hRest b (by omega) (by omega)
      rw [hTry]
      rcases ih (tab + 1) (by omega) with ⟨hNone, hRest⟩ | hFound | hFail
      · exact Or.inl ⟨hNone, fun b hLe hLt =>
          hNext b hLe hRest hLt⟩
      · exact Or.inr (Or.inl hFound)
      · exact Or.inr (Or.inr hFail)
    · rw [hTry]
      exact Or.inr (Or.inl ⟨s', t, tab, e, rfl, hOffer⟩)
    · rw [hTry]
      exact Or.inr (Or.inr ⟨rfl, hMemory⟩)

end

/- The tables are the same, with a mid table more. -/
structure MoreRows (s s' : TableData O T) : Prop where
  tableAt : ∀ m b, s'.tableAt m b = s.tableAt m b
  heap : s'.heap = s.heap
  currentTable : s'.currentTable = s.currentTable
  emptyTable : s'.emptyTable = s.emptyTable
  rest : SameRest s s'

section

omit [DecidableEq T]

variable {s s' : TableData O T}

theorem midTable_more
    (s : TableData O T) (memory : Memory T) (mid : Nat) : MoreRows s (midTable s memory mid) := by
  unfold midTable
  cases hRow : s.idsTables mid with
  | some row =>
    exact ⟨fun _ _ => rfl, rfl, rfl, rfl, ⟨rfl, rfl, rfl, rfl, rfl⟩⟩
  | none =>
    cases hMemory : memory.mid with
    | false =>
      exact ⟨fun _ _ => rfl, rfl, rfl, rfl, ⟨rfl, rfl, rfl, rfl, rfl⟩⟩
    | true =>
      refine ⟨fun m b => ?_, rfl, rfl, rfl, ⟨rfl, rfl, rfl, rfl, rfl⟩⟩
      unfold TableData.tableAt
      by_cases hSame : m = mid
      · subst hSame
        rw [if_pos rfl]
        dsimp only
        rw [update_self, hRow]
        rfl
      · rw [if_pos rfl]
        dsimp only
        rw [update_of_ne hSame]

theorem midTable_row
    (s : TableData O T) (memory : Memory T) (mid : Nat) :
    (∃ row, (midTable s memory mid).idsTables mid = some row) ∨
      memory.mid = false ∧ (midTable s memory mid).idsTables mid = none := by
  unfold midTable
  cases hRow : s.idsTables mid with
  | some row => exact Or.inl ⟨row, hRow⟩
  | none =>
    cases hMemory : memory.mid with
    | false =>
      refine Or.inr ⟨rfl, ?_⟩
      exact hRow
    | true =>
      refine Or.inl ⟨fun _ => none, ?_⟩
      exact update_self _ _ _

section

variable (hMore : MoreRows s s')

include hMore

theorem MoreRows.activeAt
    (m b n : Nat) (o : O) (k : Nat) : ActiveAt s' m b n o k ↔ ActiveAt s m b n o k := by
  unfold ActiveAt
  rw [hMore.tableAt, hMore.heap]

theorem MoreRows.tables (hTables : Tables s) : Tables s' := by
  rcases hMore with ⟨hAt, hHeap, hCurrent, hEmpty, -⟩
  rcases hTables with ⟨h₁, h₂, h₃, h₄, h₅, h₆, h₇, h₈⟩
  constructor <;> simp only [hAt, hHeap, hCurrent, hEmpty] <;> assumption

theorem MoreRows.full {m b : Nat} (hFull : Full s' m b) : Full s m b := by
  intro e hEntry
  rcases hFull e hEntry with ⟨o, k, hActive⟩
  exact ⟨o, k, (hMore.activeAt m b e o k).mp hActive⟩

theorem MoreRows.offer [DecidableEq T] {s'' : TableData O T} {t : T} {mid tab e : Nat}
    (hOffer : Offer s' s'' t mid tab e) : Offer s s'' t mid tab e := by
  rcases hOffer with ⟨hLive, hPartial, hFree, hTables, hActive, hRest⟩
  refine ⟨hLive, hPartial, ?_, hTables, ?_, hMore.rest.trans hRest⟩
  · intro o k hBefore
    exact hFree o k ((hMore.activeAt mid tab e o k).mpr hBefore)
  · intro obj g m b n o k
    rw [hActive, hMore.activeAt]

end

end

/- A mid table that cannot be allocated is a fault. -/
theorem searchRow_none (memory : Memory T) (n tab : Nat)
    (hRow : s.idsTables mid = none) : searchRow memory mid (n + 1) tab s = none := by
  unfold searchRow tryTable
  rw [hRow]
  rfl

/- A search that finds nothing leaves the objects. -/
structure Searched (s s' : TableData O T) : Prop where
  tables : Tables s'
  active :
    ∀ m b n o k,
      ActiveAt s' m b n o k ↔ ActiveAt s m b n o k
  rest : SameRest s s'

omit [DecidableEq T] in
/- At the end of the search no table is the current one. -/
theorem searched_end (hTables : Tables s) : Searched s { s with currentTable := none } := by
  refine ⟨?_, fun _ _ _ _ _ => Iff.rfl, ⟨rfl, rfl, rfl, rfl, rfl⟩⟩
  rcases hTables with ⟨h₁, h₂, h₃, h₄, h₅, h₆, -, h₈⟩
  refine ⟨h₁, h₂, h₃, h₄, h₅, h₆, ?_, h₈⟩
  intro t hCurrent
  exact nomatch hCurrent

omit [DecidableEq T] in
theorem MoreRows.searched {s'' : TableData O T}
    (hMore : MoreRows s s') (hSearched : Searched s' s'') : Searched s s'' := by
  refine ⟨hSearched.tables, ?_, hMore.rest.trans hSearched.rest⟩
  intro m b n o k
  rw [hSearched.active, hMore.activeAt]

/- The search of all tables. -/
theorem searchTables_spec (hTables : Tables s) (hFresh : Fresh s memory) (n mid : Nat)
    (hBound : mid + n ≤ maxMidTableId) :
    (∃ s', searchTables memory n mid s = some (s', none) ∧
      Searched s s' ∧
      ∀ m, mid ≤ m → m < mid + n →
        ∀ b, b < maxTableId → Full s m b) ∨
    (∃ s' t m b e, searchTables memory n mid s =
        some (s', some (t, e)) ∧
      Offer s s' t m b e) ∨
    (searchTables memory n mid s = none ∧ (memory.table = none ∨ memory.mid = false)) := by
  induction n generalizing mid s with
  | zero =>
    refine Or.inl ⟨_, rfl, searched_end hTables, fun m hLe hLt => ?_⟩
    omega
  | succ n ih =>
    unfold searchTables
    have hMore := midTable_more s memory mid
    have hTables' := hMore.tables hTables
    have hFresh' : Fresh (midTable s memory mid) memory := by
      intro t hTable
      rw [hMore.heap]
      exact hFresh t hTable
    rcases midTable_row s memory mid with ⟨row, hRow⟩ | ⟨hMemory, hRow⟩
    · rcases searchRow_spec hTables' hFresh'
        (show mid < maxMidTableId by omega) hRow maxTableId 0 (by omega) with
        ⟨hNone, hRest⟩ | ⟨s', t, b, e, hFound, hOffer⟩ | ⟨hFail, hMemory⟩
      · rw [hNone]
        rcases ih hTables' hFresh' (mid + 1) (by omega) with ⟨s', hEnd,
          hSearched, hFull⟩ | ⟨s', t, m, b, e, hFound, hOffer⟩ | hFail
        · refine Or.inl ⟨s', hEnd, hMore.searched hSearched, fun m hLe hLt b hb => ?_⟩
          by_cases hSame : m = mid
          · subst hSame
            exact hMore.full (hRest b (by omega) (by omega))
          · exact hMore.full (hFull m (by omega) (by omega) b hb)
        · exact Or.inr (Or.inl ⟨s', t, m, b, e, hFound, hMore.offer hOffer⟩)
        · exact Or.inr (Or.inr hFail)
      · rw [hFound]
        exact Or.inr (Or.inl ⟨s', t, mid, b, e, rfl, hMore.offer hOffer⟩)
      · rw [hFail]
        exact Or.inr (Or.inr ⟨rfl, Or.inl hMemory⟩)
    · refine Or.inr (Or.inr ⟨?_, Or.inr hMemory⟩)
      have hFail : searchRow memory mid maxTableId 0
          (midTable s memory mid) = none := searchRow_none memory _ 0 hRow
      rw [hFail]
      rfl

end Efl.Eo.Ids
