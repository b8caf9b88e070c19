import Efl.Eo.IdPlaces
import Efl.Lib.Lists
import Efl.Lib.Runs

/-
  Runs of allocations, releases and lookups of ids.

  Main declarations:
    * `State`, `Op`, `step`
    * `Allowed`, `Provided`
    * `idAllocate_spec`, `idRelease_spec`
    * `step_good`
-/

---
-- Entries of Ids
---

namespace Efl.Eo.Ids

variable {O T : Type} [DecidableEq T]

variable {s : TableData O T} {mid tab e : Nat}

/- What is found for the id of an entry. -/
theorem entryAt_spec {d g : Nat} (hTables : Tables s)
    (hRange : InRange mid tab e d g) :
    (∃ t obj, entryAt s (composeFinal (composePartial mid tab) e d g) =
        some (some (t, (s.heap.node t).entries e)) ∧
      s.tableAt mid tab = some t ∧
      ((s.heap.node t).entries e).Holds obj g) ∨
    entryAt s (composeFinal (composePartial mid tab) e d g) =
        some none ∧
      ∀ obj, ¬ ActiveAt s mid tab e obj g := by
  unfold entryAt
  rw [hRange.midOf_eq, hRange.tabOf_eq, hRange.entryOf_eq, hRange.generationOf_eq]
  have hTab : ¬ maxTableId ≤ tab := by
    have := hRange.tab
    omega
  have hEntry : ¬ maxEntryId ≤ e := by
    have := hRange.entry
    omega
  cases hRow : s.idsTables mid with
  | none =>
    refine Or.inr ⟨rfl, ?_⟩
    rintro obj ⟨t, hAt, -⟩
    unfold TableData.tableAt at hAt
    rw [hRow] at hAt
    exact nomatch hAt
  | some row =>
    have hTableAt : s.tableAt mid tab = row tab := by
      unfold TableData.tableAt
      rw [hRow]
      rfl
    cases hCell : row tab with
    | none =>
      refine Or.inr ⟨?_, ?_⟩
      · simp [hTab, hCell]
      · rintro obj ⟨t, hAt, -⟩
        rw [hTableAt, hCell] at hAt
        exact nomatch hAt
    | some t =>
      have hAt : s.tableAt mid tab = some t := by
        rw [hTableAt, hCell]
      have hLive := hTables.live mid tab t hAt
      by_cases hMatch :
          ((s.heap.node t).entries e).active = true ∧ ((s.heap.node t).entries e).generation = g
      · rcases hTables.filled mid tab t hAt e hMatch.1 with ⟨obj, g', hHolds, -⟩
        refine Or.inl ⟨t, obj, ?_, hAt, hHolds.active, hHolds.ptr, hMatch.2⟩
        simp [hTab, hCell, hEntry, Heap.read_of_mem hLive, hMatch]
      · refine Or.inr ⟨?_, ?_⟩
        · simp [hTab, hCell, hEntry, Heap.read_of_mem hLive, hMatch]
        · rintro obj ⟨u, hAt', hHolds⟩
          rw [hAt] at hAt'
          obtain rfl := Option.some.inj hAt'
          exact hMatch ⟨hHolds.active, hHolds.generation⟩

---
-- Allocation
---

omit [DecidableEq T] in
theorem nextGeneration_lt (hGen : s.generation < maxGenerations) :
    nextGeneration s < maxGenerations := by
  unfold nextGeneration
  unfold maxGenerations at *
  dsimp only
  split <;> split <;> omega

omit [DecidableEq T] in
theorem SameRest.nextGeneration_eq {s' : TableData O T}
    (hRest : SameRest s s') : nextGeneration s' = nextGeneration s := by
  unfold nextGeneration
  rw [hRest.shared, hRest.generation]

theorem currentEntry_spec (hTables : Tables s) :
    currentEntry s = some (s, none) ∨
      ∃ s' t mid tab e, currentEntry s =
          some (s', some (t, e)) ∧
        Offer s s' t mid tab e := by
  unfold currentEntry
  cases hCurrent : s.currentTable with
  | none => exact Or.inl rfl
  | some t =>
    rcases hTables.current t hCurrent with ⟨mid, tab, hAt⟩
    have hLive := hTables.live mid tab t hAt
    cases hGet : getAvailableEntry (s.heap.node t) with
    | none =>
      refine Or.inl ?_
      simp [Heap.read_of_mem hLive, hGet]
    | some found =>
      rcases found with ⟨table, e⟩
      refine Or.inr ⟨_, t, mid, tab, e, ?_, offer_of_available hTables hAt hGet⟩
      simp [Heap.read_of_mem hLive, hGet, Heap.modify_of_mem _ hLive]

/- The entry of an offer gets an object and an id. -/
theorem fillEntry_eq {s' : TableData O T} {t : T}
    (hOffer : Offer s s' t mid tab e) (obj : O) :
    fillEntry s' t e obj =
      some (s'.filled t e obj (nextGeneration s), composeFinal
        (composePartial mid tab) e s.domain (nextGeneration s)) := by
  have hPartial : ((s'.heap.set t ((s'.heap.node t).fill e obj
      (nextGeneration s))).node t).partialId = composePartial mid tab := by
    rw [Heap.node_set, Function.update_self]
    exact hOffer.partialId
  unfold fillEntry
  rw [hOffer.rest.nextGeneration_eq]
  dsimp only
  rw [Heap.modify_of_mem _ hOffer.live]
  change some (s'.filled t e obj (nextGeneration s),
    composeFinal ((s'.heap.set t ((s'.heap.node t).fill e obj
      (nextGeneration s))).node t).partialId e s'.domain (nextGeneration s)) = _
  rw [hPartial, hOffer.rest.domain]

/- The failures that the tables do not survive. -/
def Memory.Fails (memory : Memory T) : Prop :=
  memory.table = none ∨ memory.mid = false

/- An id is allocated while there is a place for it. -/
theorem idAllocate_spec {memory : Memory T} {mid₀ tab₀ : Nat}
    (obj : O) (hTables : Tables s) (hFresh : Fresh s memory)
    (hMid : mid₀ < maxMidTableId) (hTab : tab₀ < maxTableId)
    (hRoom : ¬ Full s mid₀ tab₀) :
    (∃ s' t mid tab e, idAllocate s memory obj =
        some (s'.filled t e obj (nextGeneration s), composeFinal
          (composePartial mid tab) e s.domain (nextGeneration s)) ∧
      Offer s s' t mid tab e) ∨
    idAllocate s memory obj = none ∧ memory.Fails := by
  unfold idAllocate
  rcases currentEntry_spec hTables with hNone | ⟨s', t, mid, tab, e, hFound, hOffer⟩
  · rw [hNone]
    rcases searchTables_spec hTables hFresh maxMidTableId 0 (by omega) with
      ⟨s', -, -, hFull⟩ | ⟨s', t, mid, tab, e, hFound, hOffer⟩ | ⟨hFail, hMemory⟩
    · exact absurd (hFull mid₀ (by omega) (by omega) tab₀ hTab) hRoom
    · refine Or.inl ⟨s', t, mid, tab, e, ?_, hOffer⟩
      simp [hFound, fillEntry_eq hOffer obj]
    · refine Or.inr ⟨?_, hMemory⟩
      simp [hFail]
  · refine Or.inl ⟨s', t, mid, tab, e, ?_, hOffer⟩
    rw [hFound]
    exact fillEntry_eq hOffer obj

---
-- Release
---

open Option Function

omit [DecidableEq T] in
theorem Table.holds_recycle
    (table : Table O) (e n : Nat) (o : O) (k : Nat) :
    ((table.recycle e).entries n).Holds o k ↔ n ≠ e ∧ (table.entries n).Holds o k := by
  have hIff := Table.active_recycle table e n
  by_cases hSame : n = e
  · constructor
    · intro hHolds
      have hOff := hIff.mpr (Or.inl hSame)
      exact nomatch hOff.symm.trans hHolds.active
    · rintro ⟨hNe, -⟩
      exact absurd hSame hNe
  · have hEntry : (table.recycle e).entries n =
          table.entries n ∨
        ((table.recycle e).entries n).ptr =
            (table.entries n).ptr ∧
          ((table.recycle e).entries n).generation =
            (table.entries n).generation ∧
          ((table.recycle e).entries n).active = (table.entries n).active := by
      unfold recycle
      cases table.fifoTail with
      | none => exact Or.inl (update_of_ne hSame _ _)
      | some t =>
        by_cases hLast : n = t
        · subst hLast
          refine Or.inr ?_
          dsimp only [setEntry]
          rw [update_self, update_of_ne hSame]
          exact ⟨rfl, rfl, rfl⟩
        · refine Or.inl ?_
          dsimp only [setEntry]
          rw [update_of_ne hLast, update_of_ne hSame]
    rcases hEntry with hEntry | ⟨hPtr, hGen, hAct⟩
    · rw [hEntry]
      tauto
    · constructor
      · rintro ⟨h₁, h₂, h₃⟩
        exact ⟨hSame, hAct ▸ h₁, hPtr ▸ h₂, hGen ▸ h₃⟩
      · rintro ⟨-, h₁, h₂, h₃⟩
        exact ⟨hAct ▸ h₁, hPtr ▸ h₂, hGen ▸ h₃⟩

omit [DecidableEq T] in
theorem Filled.recycle {table : Table O}
    (hFilled : Filled table) (e : Nat) : Filled (table.recycle e) := by
  intro n hActive
  have hStays : n ≠ e ∧ (table.entries n).active = true := by
    have hIff := Table.active_recycle table e n
    rw [hActive] at hIff
    refine ⟨fun hSame => ?_, ?_⟩
    · exact nomatch hIff.mpr (Or.inl hSame)
    · by_contra hNot
      exact nomatch hIff.mpr (Or.inr (Bool.eq_false_iff.mpr hNot))
  rcases hFilled n hStays.2 with ⟨o, k, hHolds, hLt⟩
  refine ⟨o, k, ?_, hLt⟩
  rw [Table.holds_recycle]
  exact ⟨hStays.1, hHolds⟩

/- The state with an entry given back. -/
def TableData.recycled (s : TableData O T) (t : T) (e : Nat) : TableData O T :=
  { s with
    heap := s.heap.set t ((s.heap.node t).recycle e) }

theorem placed_recycled {t : T} (hTables : Tables s)
    (hAt : s.tableAt mid tab = some t) (e : Nat) : Placed s (s.recycled t e) mid tab t := by
  have hRange := hTables.range mid tab t hAt
  refine ⟨hRange.1, hRange.2, hTables.live mid tab t hAt,
    fun u hu => hu, fun u hNe => update_of_ne hNe _ _,
    ?_, ?_, ?_, ?_, ?_, fun u hCurrent => Or.inr hCurrent⟩
  · intro m b
    split
    case isTrue hPlace =>
      rcases hPlace with ⟨rfl, rfl⟩
      exact hAt
    case isFalse => rfl
  · intro m b hAt'
    exact hTables.once m b mid tab t hAt' hAt
  · intro u hAt'
    rw [hAt] at hAt'
    exact (some.inj hAt').symm
  · unfold TableData.recycled
    dsimp only
    rw [Heap.node_set, update_self]
    rw [← hTables.partialId mid tab t hAt]
    unfold Table.recycle
    cases (s.heap.node t).fifoTail <;> rfl
  · intro u hEmpty
    refine ⟨hEmpty, ?_⟩
    rintro rfl
    exact (hTables.empty u hEmpty).2.1 mid tab hAt

/- The entry is the only one that becomes free. -/
theorem recycled_spec {t : T} (hTables : Tables s) (hAt : s.tableAt mid tab = some t)
    (hActive : ((s.heap.node t).entries e).active = true) :
    Tables (s.recycled t e) ∧
      ∀ m b n o k, ActiveAt (s.recycled t e) m b n o k ↔
        ActiveAt s m b n o k ∧ ¬ (m = mid ∧ b = tab ∧ n = e) := by
  have hPlaced := placed_recycled hTables hAt e
  have hNode : (s.recycled t e).heap.node t = (s.heap.node t).recycle e := update_self _ _ _
  constructor
  · apply hPlaced.tables hTables
    · rw [hNode]
      exact (hTables.ok mid tab t hAt).recycle hActive
    · rw [hNode]
      exact (hTables.filled mid tab t hAt).recycle e
  · intro m b n o k
    rw [hPlaced.activeAt, hNode, Table.holds_recycle]
    split
    case isTrue hPlace =>
      rcases hPlace with ⟨rfl, rfl⟩
      constructor
      · rintro ⟨hNe, hHolds⟩
        exact ⟨⟨t, hAt, hHolds⟩, fun hSame => hNe hSame.2.2⟩
      · rintro ⟨⟨u, hAt', hHolds⟩, hNot⟩
        rw [hAt] at hAt'
        obtain rfl := some.inj hAt'
        exact ⟨fun hSame => hNot ⟨rfl, rfl, hSame⟩, hHolds⟩
    case isFalse hPlace =>
      constructor
      · intro hIs
        exact ⟨hIs, fun hSame => hPlace ⟨hSame.1, hSame.2.1⟩⟩
      · intro hIs
        exact hIs.1

/- From a state to one without the table of a place. -/
structure Dropped (s s' : TableData O T) (mid tab : Nat) (t : T) : Prop where
  at_place : s.tableAt mid tab = some t
  inactive :
    ∀ e, ((s.heap.node t).entries e).active = false
  tableAt :
    ∀ m b, s'.tableAt m b =
      if m = mid ∧ b = tab then none else s.tableAt m b
  node : s'.heap.node = s.heap.node
  keeps : ∀ u ∈ s.heap.live, u ≠ t → u ∈ s'.heap.live
  current :
    s'.currentTable =
      if s.currentTable = some t then none
      else s.currentTable
  empty :
    ∀ u, s'.emptyTable = some u →
      u ∈ s'.heap.live ∧ (u = t ∨ s.emptyTable = some u)

section

variable {s s' : TableData O T} {mid tab : Nat} {t : T}

section

variable (hDropped : Dropped s s' mid tab t)

include hDropped

/- The tables that are left are other ones. -/
theorem Dropped.before (hTables : Tables s) {m b : Nat} {u : T}
    (hSome : s'.tableAt m b = some u) : s.tableAt m b = some u ∧ u ≠ t := by
  rw [hDropped.tableAt] at hSome
  split at hSome
  case isTrue => exact nomatch hSome
  case isFalse hPlace =>
    refine ⟨hSome, ?_⟩
    rintro rfl
    exact hPlace (hTables.once m b mid tab u hSome hDropped.at_place)

theorem Dropped.after {m b : Nat}
    {u : T} (hSome : s.tableAt m b = some u) (hNe : u ≠ t) : s'.tableAt m b = some u := by
  rw [hDropped.tableAt, if_neg]
  · exact hSome
  · rintro ⟨rfl, rfl⟩
    rw [hDropped.at_place] at hSome
    exact hNe (some.inj hSome).symm

theorem Dropped.tables (hTables : Tables s) : Tables s' := by
  have hNode := hDropped.node
  constructor
  · intro m b u hSome
    exact hTables.range m b u (hDropped.before hTables hSome).1
  · intro m b u hSome
    rcases hDropped.before hTables hSome with ⟨hSome, hNe⟩
    exact hDropped.keeps u (hTables.live m b u hSome) hNe
  · intro m b m' b' u hSome hSome'
    exact hTables.once m b m' b' u (hDropped.before hTables hSome).1
      (hDropped.before hTables hSome').1
  · intro m b u hSome
    rw [hNode]
    exact hTables.ok m b u (hDropped.before hTables hSome).1
  · intro m b u hSome
    rw [hNode]
    exact hTables.partialId m b u (hDropped.before hTables hSome).1
  · intro m b u hSome
    rw [hNode]
    exact hTables.filled m b u (hDropped.before hTables hSome).1
  · intro u hSome
    rw [hDropped.current] at hSome
    split at hSome
    case isTrue => exact nomatch hSome
    case isFalse hNot =>
      rcases hTables.current u hSome with ⟨m, b, hAt⟩
      refine ⟨m, b, hDropped.after hAt ?_⟩
      rintro rfl
      exact hNot hSome
  · intro u hSome
    rcases hDropped.empty u hSome with ⟨hLive, hWhich⟩
    refine ⟨hLive, ?_, ?_⟩
    · intro m b hAt
      rcases hDropped.before hTables hAt with ⟨hAt, hNe⟩
      rcases hWhich with rfl | hWas
      · exact hNe rfl
      · exact (hTables.empty u hWas).2.1 m b hAt
    · rw [hNode]
      rcases hWhich with rfl | hWas
      · exact hDropped.inactive
      · exact (hTables.empty u hWas).2.2

theorem Dropped.activeAt
    (hTables : Tables s) (m b n : Nat) (o : O) (k : Nat) :
    ActiveAt s' m b n o k ↔ ActiveAt s m b n o k := by
  constructor
  · rintro ⟨u, hSome, hHolds⟩
    rw [hDropped.node] at hHolds
    exact ⟨u, (hDropped.before hTables hSome).1, hHolds⟩
  · rintro ⟨u, hSome, hHolds⟩
    refine ⟨u, hDropped.after hSome ?_, ?_⟩
    · rintro rfl
      exact nomatch (hDropped.inactive n).symm.trans hHolds.active
    · rw [hDropped.node]
      exact hHolds

end

/- A table without objects is taken from its place. -/
theorem dropEmpty_spec {id : Nat} (hTables : Tables s)
    (hAt : s.tableAt mid tab = some t) (hMid : midOf id = mid)
    (hTab : tabOf id = tab) (hInactive :
      ∀ e, ((s.heap.node t).entries e).active = false) :
    ∃ s', dropEmpty s id t = some s' ∧ Dropped s s' mid tab t ∧ SameRest s s' := by
  have hRow : ∃ row, s.idsTables mid = some row := by
    unfold TableData.tableAt at hAt
    cases hRow : s.idsTables mid with
    | none =>
      rw [hRow] at hAt
      exact nomatch hAt
    | some row => exact ⟨row, rfl⟩
  rcases hRow with ⟨row, hRow⟩
  have hLive := hTables.live mid tab t hAt
  have hSet := tableAt_setTable hRow tab none
  unfold dropEmpty
  rw [hMid, hTab]
  cases hEmpty : s.emptyTable with
  | none =>
    have hEmpty' :
        (s.setTable mid tab none).emptyTable = none := hEmpty
    simp only [hEmpty', bind_eq_bind, bind_some]
    refine ⟨_, rfl, ⟨hAt, hInactive, hSet, rfl,
      fun u hu _ => hu, rfl, ?_⟩, ⟨rfl, rfl, rfl, rfl, rfl⟩⟩
    intro u hSome
    obtain rfl := some.inj hSome
    exact ⟨hLive, Or.inl rfl⟩
  | some u =>
    have hEmpty' : (s.setTable mid tab none).emptyTable = some u := hEmpty
    have hLive' : t ∈ (s.setTable mid tab none).heap.live := hLive
    have hSpare := hTables.empty u hEmpty
    have hNe : u ≠ t := by
      rintro rfl
      exact hSpare.2.1 mid tab hAt
    simp only [hEmpty', bind_eq_bind, bind_some, Heap.free_of_mem hLive']
    refine ⟨_, rfl, ⟨hAt, hInactive, hSet, rfl,
      fun v hv hNeV => Finset.mem_erase.mpr ⟨hNeV, hv⟩, rfl, ?_⟩, ⟨rfl, rfl, rfl, rfl, rfl⟩⟩
    intro v hSome
    obtain rfl := some.inj hSome
    exact ⟨Finset.mem_erase.mpr ⟨hNe, hSpare.1⟩, Or.inr hEmpty⟩

/- What a release does to the cache. -/
structure CacheOff (s s' : TableData O T) (id : Nat) : Prop where
  domain : s'.domain = s.domain
  shared : s'.shared = s.shared
  generation : s'.generation = s.generation
  cacheId :
    s'.cacheId = if s.cacheId = id then 0 else s.cacheId
  cacheObject :
    s.cacheId ≠ id → s'.cacheObject = s.cacheObject

/- The steps of a release. -/
theorem idRelease_eq {id : Nat} {entry : Entry O} (hFound : entryAt s id = some (some (t, entry)))
    (hLive : t ∈ s.heap.live) :
    idRelease s id =
      (if ((s.recycled t (entryOf id)).heap.node t).freeEntries =
          maxEntryId then
        dropEmpty (s.recycled t (entryOf id)) id t
      else some (s.recycled t (entryOf id))).bind fun s' =>
        if s'.cacheId = id then
          some { s' with cacheId := 0, cacheObject := none }
        else some s' := by
  unfold idRelease
  rw [hFound]
  simp only [bind_eq_bind, bind_some, Heap.modify_of_mem _ hLive]
  unfold TableData.recycled
  dsimp only
  split <;> rfl

/- The release of an id that has an object. -/
theorem idRelease_spec {e d g : Nat} {obj : O} (hTables : Tables s) (hRange : InRange mid tab e d g)
    (hActive : ActiveAt s mid tab e obj g) :
    ∃ s', idRelease s (composeFinal (composePartial mid tab) e d g) =
          some s' ∧
      Tables s' ∧
      (∀ m b n o k, ActiveAt s' m b n o k ↔ ActiveAt s m b n o k ∧
        ¬ (m = mid ∧ b = tab ∧ n = e)) ∧
      CacheOff s s' (composeFinal (composePartial mid tab) e d g) := by
  rcases entryAt_spec hTables hRange with ⟨t, obj', hFound, hAt, hHolds⟩ | ⟨-, hNone⟩
  · have hLive := hTables.live mid tab t hAt
    rcases recycled_spec hTables hAt hHolds.active with ⟨hTables', hActive'⟩
    have hAt' : (s.recycled t e).tableAt mid tab = some t := hAt
    have hNext : ∃ s', (if ((s.recycled t e).heap.node t).freeEntries =
          maxEntryId then
          dropEmpty (s.recycled t e) (composeFinal (composePartial mid tab) e d g) t
        else some (s.recycled t e)) = some s' ∧ Tables s' ∧
        (∀ m b n o k, ActiveAt s' m b n o k ↔
          ActiveAt (s.recycled t e) m b n o k) ∧
        SameRest (s.recycled t e) s' := by
      split
      case isTrue hFree =>
        rcases dropEmpty_spec hTables' hAt' hRange.midOf_eq hRange.tabOf_eq
          ((hTables'.ok mid tab t hAt').all_inactive hFree) with ⟨s', hDrop, hDropped, hRest⟩
        exact ⟨s', hDrop, hDropped.tables hTables', hDropped.activeAt hTables', hRest⟩
      case isFalse =>
        exact ⟨_, rfl, hTables', fun _ _ _ _ _ => Iff.rfl, ⟨rfl, rfl, rfl, rfl, rfl⟩⟩
    rcases hNext with ⟨s₁, hNext, hTables₁, hActive₁, hRest⟩
    have hCache : s₁.cacheId = s.cacheId := hRest.cacheId
    have hBoth : ∀ m b n o k, ActiveAt s₁ m b n o k ↔
        ActiveAt s m b n o k ∧ ¬ (m = mid ∧ b = tab ∧ n = e) := by
      intro m b n o k
      rw [hActive₁, hActive']
    rw [idRelease_eq hFound hLive, hRange.entryOf_eq, hNext, bind_some, hCache]
    split
    case isTrue hSame =>
      refine ⟨_, rfl, ?_, hBoth, hRest.domain, hRest.shared,
        hRest.generation, (if_pos hSame).symm, ?_⟩
      · rcases hTables₁ with ⟨h₁, h₂, h₃, h₄, h₅, h₆, h₇, h₈⟩
        exact ⟨h₁, h₂, h₃, h₄, h₅, h₆, h₇, h₈⟩
      · intro hNe
        exact absurd hSame hNe
    case isFalse hNe =>
      refine ⟨s₁, rfl, hTables₁, hBoth, hRest.domain, hRest.shared,
        hRest.generation, ?_, fun _ => hRest.cacheObject⟩
      rw [if_neg hNe, hCache]
  · exact absurd hActive (hNone obj)

/- The release of an id without an object does nothing. -/
theorem idRelease_none {e d g : Nat} (hTables : Tables s) (hRange : InRange mid tab e d g)
    (hNone : ∀ obj, ¬ ActiveAt s mid tab e obj g) :
    idRelease s (composeFinal (composePartial mid tab) e d g) = some s := by
  rcases entryAt_spec hTables hRange with ⟨t, obj, -, hAt, hHolds⟩ | ⟨hFound, -⟩
  · exact absurd ⟨t, hAt, hHolds⟩ (hNone obj)
  · unfold idRelease
    rw [hFound]
    rfl

end

---
-- Runs
---

open List

/-
  The tables, with the live objects under their ids and with
  all ids that have been issued.
-/
structure State (O T : Type) where
  data : TableData O T
  live : List (Nat × O)
  issued : List Nat

/- The calls on the ids of a domain. -/
inductive Op (O T : Type) where
  | allocate (memory : Memory T) (obj : O)
  | release (id : Nat)
  | lookup (id : Nat)

def step (s : State O T) : Op O T → Option (State O T)
  | .allocate memory obj => do
    let (data, id) ← idAllocate s.data memory obj
    some ⟨data, (id, obj) :: s.live, id :: s.issued⟩
  | .release id => do
    let data ← idRelease s.data id
    some
      { s with
        data := data
        live := s.live.filter fun p => p.1 ≠ id }
  | .lookup id => do
    let (data, _) ← objPointerGet s.data id
    some { s with data := data }

/-
  There are fewer objects than entries; released and looked up
  is what has been issued, at any time.
-/
def Allowed (s : State O T) : Op O T → Prop
  | .allocate memory _ =>
    Fresh s.data memory ∧
      s.live.length <
        maxMidTableId * (maxTableId * maxEntryId)
  | .release id => id ∈ s.issued
  | .lookup id => id ∈ s.issued

/- The memory of the operation is there. -/
def Provided : Op O T → Prop
  | .allocate memory _ => ¬ memory.Fails
  | .release _ => True
  | .lookup _ => True

/- The domain before the first object. -/
def start (domain : Nat) (shared : Bool) (generation : Nat) (node : T → Table O) : State O T :=
  ⟨.new domain shared generation node, [], []⟩

/- The invariant of the tables, the objects and the cache. -/
structure Good (s : State O T) : Prop where
  tables : Tables s.data
  domain : s.data.domain < 4
  generation : s.data.generation < maxGenerations
  entries :
    ∀ id obj, (id, obj) ∈ s.live ↔
      ∃ mid tab e g,
        ActiveAt s.data mid tab e obj g ∧
        id = composeFinal (composePartial mid tab) e
          s.data.domain g
  nodup : (s.live.map Prod.fst).Nodup
  issued :
    ∀ id ∈ s.issued, ∃ mid tab e g,
      InRange mid tab e s.data.domain g ∧
      id = composeFinal (composePartial mid tab) e
        s.data.domain g
  cache :
    s.data.cacheId = 0 ∨
      ∃ obj, s.data.cacheObject = some obj ∧
        (s.data.cacheId, obj) ∈ s.live

/- What the ids and the tables of a state promise. -/
structure Correct (s : State O T) : Prop where
  distinct : (s.live.map Prod.fst).Nodup
  nonzero : ∀ p ∈ s.live, p.1 ≠ 0
  found :
    ∀ p ∈ s.live, ∃ data,
      objPointerGet s.data p.1 = some (data, some p.2)
  rejected :
    ∀ id ∈ s.issued, id ∉ s.live.map Prod.fst →
      ∃ data, objPointerGet s.data id = some (data, none)
  tables :
    ∀ mid tab t, s.data.tableAt mid tab = some t →
      TableOk (s.data.heap.node t)

section

variable {s : State O T}

section

variable (hGood : Good s)

include hGood

omit [DecidableEq T] in
/- An id of a live object is in range. -/
theorem Good.inRange {id : Nat} {obj : O}
    (hLive : (id, obj) ∈ s.live) :
    ∃ mid tab e g, InRange mid tab e s.data.domain g ∧
      ActiveAt s.data mid tab e obj g ∧
      id = composeFinal (composePartial mid tab) e s.data.domain g := by
  rcases (hGood.entries id obj).mp hLive with ⟨mid, tab, e, g, hActive, hId⟩
  exact ⟨mid, tab, e, g, hGood.tables.inRange hGood.domain hActive, hActive, hId⟩

omit [DecidableEq T] in
/- The id of a place that is not live has no object there. -/
theorem Good.not_active {mid tab e g : Nat}
    (hNot : composeFinal (composePartial mid tab) e s.data.domain g ∉
    s.live.map Prod.fst) (obj : O) : ¬ ActiveAt s.data mid tab e obj g := by
  intro hActive
  apply hNot
  have hLive := (hGood.entries _ obj).mpr ⟨mid, tab, e, g, hActive, rfl⟩
  exact mem_map.mpr ⟨_, hLive, rfl⟩

omit [DecidableEq T] in
/- A live id has one object. -/
theorem Good.unique {id : Nat} {obj obj' : O}
    (hLeft : (id, obj) ∈ s.live) (hRight : (id, obj') ∈ s.live) : obj = obj' := by
  rcases hGood.inRange hLeft with ⟨mid, tab, e, g, hRange, hActive, hId⟩
  rcases hGood.inRange hRight with ⟨mid', tab', e', g', hRange', hActive', hId'⟩
  obtain ⟨rfl, rfl, rfl, rfl⟩ := hRange.injective hRange' (hId.symm.trans hId')
  exact (hActive.unique hActive').1

/- The lookup of a live id. -/
theorem Good.lookup_live {id : Nat} {obj : O}
    (hLive : (id, obj) ∈ s.live) :
    ∃ data, objPointerGet s.data id =
        some (data, some obj) ∧
      (data = s.data ∨ data = { s.data with
          cacheId := id
          cacheObject := some obj }) := by
  rcases hGood.inRange hLive with ⟨mid, tab, e, g, hRange, hActive, rfl⟩
  unfold objPointerGet
  split
  case isTrue hCached =>
    refine ⟨s.data, ?_, Or.inl rfl⟩
    rcases hGood.cache with hZero | ⟨obj', hObj, hLive'⟩
    · rw [hZero] at hCached
      exact absurd hCached hRange.id_ne
    · rw [← hCached] at hLive'
      rw [hObj, hGood.unique hLive hLive']
  case isFalse =>
    rw [if_neg hRange.id_ne, if_neg hRange.tagOf_ne]
    rcases entryAt_spec hGood.tables hRange with ⟨t, obj', hFound, hAt, hHolds⟩ | ⟨-, hNone⟩
    · have hSame := (hActive.unique ⟨t, hAt, hHolds⟩).1
      refine ⟨_, ?_, Or.inr rfl⟩
      rw [hFound, hSame]
      simp [hHolds.ptr]
    · exact absurd hActive (hNone obj)

/- The lookup of an issued id that is not live. -/
theorem Good.lookup_dead {id : Nat}
    (hIssued : id ∈ s.issued) (hDead : id ∉ s.live.map Prod.fst) :
    objPointerGet s.data id = some (s.data, none) := by
  rcases hGood.issued id hIssued with ⟨mid, tab, e, g, hRange, rfl⟩
  have hNone := hGood.not_active hDead
  have hCache : composeFinal (composePartial mid tab) e s.data.domain g ≠ s.data.cacheId := by
    intro hSame
    rcases hGood.cache with hZero | ⟨obj, -, hLive⟩
    · rw [hZero] at hSame
      exact hRange.id_ne hSame
    · rw [← hSame] at hLive
      exact hDead (mem_map.mpr ⟨_, hLive, rfl⟩)
  unfold objPointerGet
  rw [if_neg hCache, if_neg hRange.id_ne, if_neg hRange.tagOf_ne]
  rcases entryAt_spec hGood.tables hRange with ⟨t, obj, -, hAt, hHolds⟩ | ⟨hFound, -⟩
  · exact absurd ⟨t, hAt, hHolds⟩ (hNone obj)
  · rw [hFound]
    rfl

/- The invariant gives what is promised. -/
theorem Good.correct : Correct s := by
  refine ⟨hGood.nodup, ?_, ?_, ?_, hGood.tables.ok⟩
  · rintro ⟨id, obj⟩ hLive
    rcases hGood.inRange hLive with ⟨mid, tab, e, g, hRange, -, rfl⟩
    exact hRange.id_ne
  · rintro ⟨id, obj⟩ hLive
    rcases hGood.lookup_live hLive with ⟨data, hFound, -⟩
    exact ⟨data, hFound⟩
  · intro id hIssued hDead
    exact ⟨_, hGood.lookup_dead hIssued hDead⟩

omit [DecidableEq T] in
/- With room left, some table is not full. -/
theorem Good.room (hRoom : s.live.length <
      maxMidTableId * (maxTableId * maxEntryId)) :
    ∃ mid tab, mid < maxMidTableId ∧ tab < maxTableId ∧ ¬ Full s.data mid tab := by
  by_contra hFull
  push Not at hFull
  have hAll : ∀ mid tab e, mid < maxMidTableId →
      tab < maxTableId → e < maxEntryId →
      (mid, tab, e) ∈ s.live.map fun p =>
        (midOf p.1, tabOf p.1, entryOf p.1) := by
    intro mid tab e hMid hTab hEntry
    rcases hFull mid tab hMid hTab e hEntry with ⟨obj, g, hActive⟩
    have hRange := hGood.tables.inRange hGood.domain hActive
    have hLive := (hGood.entries _ obj).mpr ⟨mid, tab, e, g, hActive, rfl⟩
    refine mem_map.mpr ⟨_, hLive, ?_⟩
    dsimp only
    rw [hRange.midOf_eq, hRange.tabOf_eq, hRange.entryOf_eq]
  have hLength := Lists.mul_le_length hAll
  rw [length_map] at hLength
  exact Nat.not_lt.mpr hLength hRoom

/- An allocation logs a new id with its object. -/
theorem allocate_good {memory : Memory T} {obj : O}
    (hAllowed : Allowed s (.allocate memory obj)) :
    (∃ s', step s (.allocate memory obj) = some s' ∧ Good s') ∨
    step s (.allocate memory obj) = none ∧ memory.Fails := by
  rcases hAllowed with ⟨hFresh, hLength⟩
  rcases hGood.room hLength with ⟨mid₀, tab₀, hMid, hTab, hRoom⟩
  unfold step
  dsimp only
  rcases idAllocate_spec obj hGood.tables hFresh hMid hTab hRoom
    with ⟨s₁, t, mid, tab, e, hFound, hOffer⟩ | ⟨hFail, hMemory⟩
  · refine Or.inl ⟨_, by rw [hFound]; rfl, ?_⟩
    have hGen := nextGeneration_lt hGood.generation
    have hTables := hOffer.tables obj _ hGen
    have hActive := hOffer.active obj (nextGeneration s.data)
    have hDomain : s₁.domain = s.data.domain := hOffer.rest.domain
    have hNew := (hActive mid tab e obj (nextGeneration s.data)).mpr
      (Or.inr ⟨rfl, rfl, rfl, rfl, rfl⟩)
    have hRange : InRange mid tab e s.data.domain (nextGeneration s.data) := by
      rw [← hDomain]
      exact hTables.inRange (show s₁.domain < 4 from hDomain ▸ hGood.domain) hNew
    constructor
    · exact hTables
    · exact show s₁.domain < 4 from hDomain ▸ hGood.domain
    · exact hGen
    · intro id o
      change _ ↔ ∃ m b n k, _ ∧ id = composeFinal (composePartial m b) n s₁.domain k
      rw [mem_cons, hGood.entries, hDomain]
      constructor
      · rintro (hSame | ⟨m, b, n, k, hOld, hId⟩)
        · obtain ⟨rfl, rfl⟩ := Prod.mk.inj hSame
          exact ⟨mid, tab, e, _, hNew, rfl⟩
        · exact ⟨m, b, n, k, (hActive m b n o k).mpr (Or.inl hOld), hId⟩
      · rintro ⟨m, b, n, k, hIs, hId⟩
        rcases (hActive m b n o k).mp hIs with hOld | ⟨rfl, rfl, rfl, rfl, rfl⟩
        · exact Or.inr ⟨m, b, n, k, hOld, hId⟩
        · exact Or.inl (Prod.ext hId rfl)
    · refine nodup_cons.mpr ⟨?_, hGood.nodup⟩
      intro hMem
      rcases mem_map.mp hMem with ⟨⟨id, o⟩, hLive, hSame⟩
      rcases hGood.inRange hLive with ⟨m, b, n, k, hRange', hOld, hId⟩
      obtain ⟨rfl, rfl, rfl, rfl⟩ := hRange'.injective hRange (hId.symm.trans hSame)
      exact hOffer.free o _ hOld
    · intro id hMem
      change ∃ m b n k, InRange m b n s₁.domain k ∧
        id = composeFinal (composePartial m b) n s₁.domain k
      rw [hDomain]
      rcases mem_cons.mp hMem with rfl | hMem
      · exact ⟨mid, tab, e, _, hRange, rfl⟩
      · exact hGood.issued id hMem
    · change s₁.cacheId = 0 ∨ ∃ o, s₁.cacheObject = some o ∧ (s₁.cacheId, o) ∈ _ :: _
      rw [hOffer.rest.cacheId, hOffer.rest.cacheObject]
      rcases hGood.cache with hZero | ⟨o, hObj, hLive⟩
      · exact Or.inl hZero
      · exact Or.inr ⟨o, hObj, mem_cons_of_mem _ hLive⟩
  · refine Or.inr ⟨?_, hMemory⟩
    rw [hFail]
    rfl

/- A release forgets the id. -/
theorem release_good {id : Nat}
    (hIssued : id ∈ s.issued) : ∃ s', step s (.release id) = some s' ∧ Good s' := by
  rcases hGood.issued id hIssued with ⟨mid, tab, e, g, hRange, hId⟩
  unfold step
  dsimp only
  by_cases hSome : ∃ obj, ActiveAt s.data mid tab e obj g
  · rcases hSome with ⟨obj, hActive⟩
    rcases idRelease_spec hGood.tables hRange hActive with
      ⟨data, hRelease, hTables, hActive', hCache⟩
    rw [← hId] at hRelease hCache
    refine ⟨_, by rw [hRelease]; rfl, ?_⟩
    have hFilter : ∀ id' o,
        (id', o) ∈ (s.live.filter fun p => p.1 ≠ id) ↔ (id', o) ∈ s.live ∧ id' ≠ id := by
      intro id' o
      rw [mem_filter, decide_eq_true_iff]
    constructor
    · exact hTables
    · exact show data.domain < 4 from hCache.domain ▸ hGood.domain
    · exact show data.generation < maxGenerations from
        hCache.generation ▸ hGood.generation
    · intro id' o
      change _ ↔ ∃ m b n k, _ ∧ id' = composeFinal (composePartial m b) n data.domain k
      rw [hFilter, hGood.entries, hCache.domain]
      constructor
      · rintro ⟨⟨m, b, n, k, hOld, rfl⟩, hNe⟩
        refine ⟨m, b, n, k, (hActive' m b n o k).mpr ⟨hOld, ?_⟩, rfl⟩
        rintro ⟨rfl, rfl, rfl⟩
        have hSame := (hOld.unique hActive).2
        rw [hSame] at hNe
        exact hNe hId.symm
      · rintro ⟨m, b, n, k, hIs, rfl⟩
        rcases (hActive' m b n o k).mp hIs with ⟨hOld, hPlace⟩
        refine ⟨⟨m, b, n, k, hOld, rfl⟩, ?_⟩
        intro hSame
        have hRange' := hGood.tables.inRange hGood.domain hOld
        obtain ⟨rfl, rfl, rfl, -⟩ := hRange'.injective hRange (hSame.trans hId)
        exact hPlace ⟨rfl, rfl, rfl⟩
    · exact hGood.nodup.sublist (List.filter_sublist.map Prod.fst)
    · intro id' hMem
      change ∃ m b n k, InRange m b n data.domain k ∧
        id' = composeFinal (composePartial m b) n data.domain k
      rw [hCache.domain]
      exact hGood.issued id' hMem
    · change data.cacheId = 0 ∨ ∃ o, data.cacheObject = some o ∧ (data.cacheId, o) ∈ s.live.filter _
      rw [hCache.cacheId]
      split
      case isTrue => exact Or.inl rfl
      case isFalse hNe =>
        rcases hGood.cache with hZero | ⟨o, hObj, hLive⟩
        · exact Or.inl hZero
        · refine Or.inr ⟨o, ?_, (hFilter _ o).mpr ⟨hLive, hNe⟩⟩
          rw [hCache.cacheObject hNe, hObj]
  · have hNone := not_exists.mp hSome
    have hRelease := idRelease_none hGood.tables hRange hNone
    rw [← hId] at hRelease
    have hAll : (s.live.filter fun p => p.1 ≠ id) = s.live := by
      rw [filter_eq_self]
      rintro ⟨id', o⟩ hLive
      rw [decide_eq_true_iff]
      rintro rfl
      rcases hGood.inRange hLive with ⟨m, b, n, k, hRange', hOld, hId'⟩
      obtain ⟨rfl, rfl, rfl, rfl⟩ := hRange'.injective hRange (hId'.symm.trans hId)
      exact hNone o hOld
    refine ⟨s, ?_, hGood⟩
    rw [hRelease]
    change some { s with
      data := s.data
      live := s.live.filter _ } = some s
    rw [hAll]

/- A lookup changes nothing but the cache. -/
theorem lookup_good {id : Nat}
    (hIssued : id ∈ s.issued) : ∃ s', step s (.lookup id) = some s' ∧ Good s' := by
  unfold step
  dsimp only
  by_cases hMem : id ∈ s.live.map Prod.fst
  · rcases mem_map.mp hMem with ⟨⟨id', o⟩, hLive, rfl⟩
    rcases hGood.lookup_live hLive with ⟨data, hFound, rfl | rfl⟩
    · exact ⟨s, by rw [hFound]; rfl, hGood⟩
    · refine ⟨_, by rw [hFound]; rfl, ?_⟩
      rcases hGood with ⟨⟨h₁, h₂, h₃, h₄, h₅, h₆, h₇, h₈⟩, hDomain,
        hGen, hEntries, hNodup, hIssued', -⟩
      exact ⟨⟨h₁, h₂, h₃, h₄, h₅, h₆, h₇, h₈⟩, hDomain, hGen,
        hEntries, hNodup, hIssued', Or.inr ⟨o, rfl, hLive⟩⟩
  · refine ⟨s, ?_, hGood⟩
    rw [hGood.lookup_dead hIssued hMem]
    rfl

/- One operation keeps the invariant, or memory is missing. -/
theorem step_good {op : Op O T}
    (hAllowed : Allowed s op) :
    (∃ s', step s op = some s' ∧ Good s') ∨ step s op = none ∧ ¬ Provided op := by
  cases op with
  | allocate memory obj =>
    rcases allocate_good hGood hAllowed with hNext | ⟨hNone, hFails⟩
    · exact Or.inl hNext
    · exact Or.inr ⟨hNone, fun hProvided => hProvided hFails⟩
  | release id => exact Or.inl (release_good hGood hAllowed)
  | lookup id => exact Or.inl (lookup_good hGood hAllowed)

end

end

omit [DecidableEq T] in
theorem start_good {domain : Nat} (hDomain : domain < 4)
    (shared : Bool) (generation : Nat) (node : T → Table O) :
    Good (start domain shared generation node) := by
  have hNone : ∀ mid tab t,
      (start domain shared generation node).data.tableAt mid tab ≠ some t := by
    intro mid tab t hAt
    exact nomatch hAt
  refine ⟨⟨?_, ?_, ?_, ?_, ?_, ?_, ?_, ?_⟩, hDomain, ?_, ?_, nodup_nil, ?_, Or.inl rfl⟩
  · intro mid tab t hAt
    exact absurd hAt (hNone mid tab t)
  · intro mid tab t hAt
    exact absurd hAt (hNone mid tab t)
  · intro mid tab _ _ t hAt
    exact absurd hAt (hNone mid tab t)
  · intro mid tab t hAt
    exact absurd hAt (hNone mid tab t)
  · intro mid tab t hAt
    exact absurd hAt (hNone mid tab t)
  · intro mid tab t hAt
    exact absurd hAt (hNone mid tab t)
  · intro t hSome
    exact nomatch hSome
  · intro t hSome
    exact nomatch hSome
  · exact Nat.mod_lt _ (by decide)
  · intro id obj
    constructor
    · intro hMem
      exact nomatch hMem
    · rintro ⟨mid, tab, e, g, ⟨t, hAt, -⟩, -⟩
      exact absurd hAt (hNone mid tab t)
  · intro id hMem
    exact nomatch hMem

/-
  After every run the ids and the tables are correct, and
  nothing but missing memory stops a run.
-/
theorem ids_correct {domain : Nat} (hDomain : domain < 4)
    (shared : Bool) (generation : Nat) (node : T → Table O)
    (ops : List (Op O T)) (hAllowed : Runs.Guarded step Allowed
      (start domain shared generation node) ops) :
    (∀ s, Runs.run step (start domain shared generation node) ops =
        some s → Correct s) ∧
    ((∀ op ∈ ops, Provided op) → ∃ s, Runs.run step
      (start domain shared generation node) ops = some s) := by
  have hStart := start_good hDomain shared generation node
  constructor
  · intro s hRun
    apply Good.correct
    refine Runs.inv_of_run Good ?_ hStart hAllowed hRun
    intro s op s' hGood hOk hStep
    rcases step_good hGood hOk with ⟨s'', hNext, hGood'⟩ | ⟨hNone, -⟩
    · rw [hStep] at hNext
      obtain rfl := some.inj hNext
      exact hGood'
    · rw [hStep] at hNone
      exact nomatch hNone
  · intro hProvided
    have hBoth := hAllowed.and_forall hProvided
    have hStep : ∀ (s : State O T) (op : Op O T), Good s →
        Allowed s op ∧ Provided op →
        ∃ s', step s op = some s' ∧ Good s' := by
      rintro s op hGood ⟨hOk, hHere⟩
      rcases step_good hGood hOk with hNext | ⟨-, hNot⟩
      · exact hNext
      · exact absurd hHere hNot
    rcases Runs.run_of_guarded Good hStep hStart hBoth with ⟨s, hRun, -⟩
    exact ⟨s, hRun⟩

/- The first id of a domain, released and looked up again. -/
theorem ids_correct_sample :
    ∃ s, Runs.run step
        (start 0 false 0 fun _ : Nat => (Table.zero : Table Nat))
        [.allocate ⟨true, some 3⟩ 7, .release (2 ^ 46 + 1),
          .lookup (2 ^ 46 + 1)] = some s ∧
      Correct s := by
  have hSome : (Runs.run step (start 0 false 0 fun _ : Nat =>
      (Table.zero : Table Nat)) [.allocate ⟨true, some 3⟩ 7,
      .release (2 ^ 46 + 1), .lookup (2 ^ 46 + 1)]).isSome := by
    decide
  rcases isSome_iff_exists.mp hSome with ⟨s, hRun⟩
  refine ⟨s, hRun, ?_⟩
  refine (ids_correct (by decide) false 0 _ _ ?_).1 s hRun
  refine ⟨⟨?_, by decide⟩, fun s₁ hFirst => ?_⟩
  · intro t _ hLive
    exact absurd hLive (Finset.notMem_empty t)
  · have hIssued : (step (start 0 false 0 fun _ : Nat =>
        (Table.zero : Table Nat))
        (.allocate ⟨true, some 3⟩ 7)).map State.issued =
        some [2 ^ 46 + 1] := by decide
    rw [hFirst] at hIssued
    have hId := some.inj hIssued
    refine ⟨?_, fun s₂ hSecond => ⟨?_, fun _ _ => trivial⟩⟩
    · change _ ∈ s₁.issued
      rw [hId]
      exact mem_singleton.mpr rfl
    · have hSame : s₂.issued = s₁.issued := by
        rw [step, bind_eq_bind, bind_eq_some_iff] at hSecond
        rcases hSecond with ⟨data, -, hData⟩
        exact (congrArg State.issued (some.inj hData)).symm
      change _ ∈ s₂.issued
      rw [hSame, hId]
      exact mem_singleton.mpr rfl

end Efl.Eo.Ids
