import Efl.Eo.IdRuns

/-
  The ids of several domains.

  A thread has a table for each domain that is available to it
  and a stack of domains; the ids of new objects are made for
  the domain on the top of the stack.

  Main declarations:
    * `IdData`, `IdData.allocate`, `IdData.objPointerGet`
    * `Reachable`, what a thread can have
    * `Reachable.inOrder`
    * `IdData.InOrder.found_iff`
-/

---
-- Domains of a Thread
---

namespace Efl.Eo.Ids

open Function

section

variable {O T : Type}

/- `EFL_ID_DOMAIN_MAIN`, `_SHARED`, `_THREAD` -/
def domainMain : Nat :=
  0

def domainShared : Nat :=
  1

def domainThread : Nat :=
  2

/- `_Eo_Id_Data` -/
structure IdData (O T : Type) where
  tables : Nat → Option (TableData O T)
  localDomain : Nat
  stackTop : Nat
  domainStack : Nat → Nat

/- The number of tables, and of places on the stack -/
def tablesSize : Nat :=
  4

def stackSize : Nat :=
  255 - 8 * 4 - 2

/- `_eo_table_data_new`, with the table of all threads -/
def IdData.new (domain : Nat) (generation : Nat) (node : T → Table O)
    (shared : TableData O T) : IdData O T where
  tables := fun d =>
    if d = domain then
      some (.new domain (domain = domainShared) generation node)
    else if d = domainShared then some shared
    else none
  localDomain := domain
  stackTop := 0
  domainStack := fun i => if i = 0 then domain else 0

/- `efl_domain_current_get` -/
def IdData.current (data : IdData O T) : Nat :=
  data.domainStack data.stackTop

def IdData.setTable (data : IdData O T) (d : Nat) (s : Option (TableData O T)) : IdData O T :=
  { data with tables := update data.tables d s }

/- `efl_domain_current_push`; the stack holds bytes. -/
def IdData.push (data : IdData O T) (domain : Nat) : IdData O T :=
  if stackSize - 1 ≤ data.stackTop then
    data
  else
    { data with
      stackTop := data.stackTop + 1
      domainStack := update data.domainStack
        (data.stackTop + 1) (domain % 256) }

/- `efl_domain_current_pop` -/
def IdData.pop (data : IdData O T) : IdData O T :=
  { data with stackTop := data.stackTop - 1 }

/- `efl_domain_current_set` -/
def IdData.set (data : IdData O T) (domain : Nat) : IdData O T :=
  if domainThread < domain then
    data
  else
    { data with
      domainStack := update data.domainStack
        data.stackTop domain }

/- `efl_domain_data_adopt` -/
def IdData.adopt (data foreign : IdData O T) : IdData O T :=
  if foreign.localDomain = data.localDomain then
    data
  else if (data.tables foreign.localDomain).isSome then
    data
  else
    (data.setTable foreign.localDomain
      (foreign.tables foreign.localDomain)).push
        foreign.localDomain

/- `efl_domain_data_return` -/
def IdData.giveBack (data : IdData O T) (domain : Nat) : IdData O T :=
  if domainThread < domain then
    data
  else if domain = data.localDomain then
    data
  else
    (data.setTable domain none).pop

section

variable [DecidableEq T]

/- The domain in whose table a new object is put. -/
def IdData.tableDomain (data : IdData O T) (parentId : Nat) : Nat :=
  if parentId = 0 then data.current else domainOf parentId

/- The domain that is written into its id. -/
def IdData.idDomain (data : IdData O T) (s : TableData O T) : Nat :=
  if s.shared then domainShared else data.current

/-
  `_eo_id_allocate`; `none` is also an access behind the array
  of tables.
-/
def IdData.allocate (data : IdData O T) (memory : Memory T)
    (obj : O) (parentId : Nat) : Option (IdData O T × Nat) :=
  if tablesSize ≤ data.tableDomain parentId then
    none
  else
    match data.tables (data.tableDomain parentId) with
    | none => some (data, 0)
    | some s => do
      let (s, id) ← idAllocate
        { s with domain := data.idDomain s } memory obj
      some
        (data.setTable (data.tableDomain parentId) (some s),
          id)

/- `_eo_id_release` -/
def IdData.release (data : IdData O T) (id : Nat) : Option (IdData O T) :=
  match data.tables (domainOf id) with
  | none => some data
  | some s => do
    let s ← idRelease s id
    some (data.setTable (domainOf id) (some s))

/- `_eo_obj_pointer_get` -/
def IdData.objPointerGet (data : IdData O T) (id : Nat) : Option (IdData O T × Option O) :=
  match data.tables (domainOf id) with
  | none => some (data, none)
  | some s => do
    let (s, obj) ← Ids.objPointerGet s id
    some (data.setTable (domainOf id) (some s), obj)

/- The lookup of an id gives the object. -/
def IdData.Found (data : IdData O T) (id : Nat) (obj : O) : Prop :=
  ∃ data', data.objPointerGet id = some (data', some obj)

/- The allocator gives no table that the domain has. -/
def IdData.Fresh (data : IdData O T) (memory : Memory T) (parentId : Nat) : Prop :=
  ∀ s, data.tables (data.tableDomain parentId) = some s →
    Ids.Fresh s memory

/- An id of the form that is given out. -/
def Composed (id : Nat) : Prop :=
  ∃ mid tab e d g, InRange mid tab e d g ∧
    id = composeFinal (composePartial mid tab) e d g

/-
  What a thread can have, after calls of its own and of other
  threads that use the same tables.
-/
inductive Reachable : IdData O T → Prop where
  | start
      (domain generation generation' : Nat)
      (node node' : T → Table O)
      (hDomain : domain = domainMain ∨ domain = domainThread) :
      Reachable (.new domain generation node
        (.new domainShared true generation' node'))
  | push {data : IdData O T}
      (hData : Reachable data) (domain : Nat) :
      Reachable (data.push domain)
  | pop {data : IdData O T}
      (hData : Reachable data) :
      Reachable data.pop
  | set {data : IdData O T}
      (hData : Reachable data) (domain : Nat) :
      Reachable (data.set domain)
  | adopt {data foreign : IdData O T}
      (hData : Reachable data) (hForeign : Reachable foreign) :
      Reachable (data.adopt foreign)
  | giveBack {data : IdData O T}
      (hData : Reachable data) (domain : Nat) :
      Reachable (data.giveBack domain)
  | others {data foreign : IdData O T}
      (hData : Reachable data) (hForeign : Reachable foreign)
      (d : Nat)
      (hBoth : (data.tables d).isSome) :
      Reachable (data.setTable d (foreign.tables d))
  | allocate {data data' : IdData O T}
      (hData : Reachable data)
      (memory : Memory T) (obj : O) (parentId id : Nat)
      (hFresh : data.Fresh memory parentId)
      (hStep : data.allocate memory obj parentId =
        some (data', id)) :
      Reachable data'
  | release {data data' : IdData O T}
      (hData : Reachable data)
      (id : Nat) (hId : Composed id)
      (hStep : data.release id = some data') :
      Reachable data'
  | lookup {data data' : IdData O T}
      (hData : Reachable data)
      (id : Nat) (hId : Composed id) (obj : Option O)
      (hStep : data.objPointerGet id = some (data', obj)) :
      Reachable data'

/- No entry of the thread's tables has the object. -/
def IdData.New (data : IdData O T) (obj : O) : Prop :=
  ∀ d s, data.tables d = some s →
    ∀ mid tab e g, ¬ ActiveAt s mid tab e obj g

end

---
-- Tables in Order
---

/-
  The table of a domain: what is cached for an id of the domain
  is the object of its entry.
-/
structure TableData.InOrder (s : TableData O T) (d : Nat) : Prop where
  tables : Tables s
  generation : s.generation < maxGenerations
  shared : s.shared = true ↔ d = domainShared
  cache :
    ∀ mid tab e g, InRange mid tab e d g →
      s.cacheId = composeFinal (composePartial mid tab) e d g →
      ∃ obj, s.cacheObject = some obj ∧
        ActiveAt s mid tab e obj g

def IdData.InOrder (data : IdData O T) : Prop :=
  ∀ d s, data.tables d = some s → s.InOrder d

/- Only the number of the domain is another one. -/
theorem Tables.withDomain {s : TableData O T}
    (hTables : Tables s) (d : Nat) : Tables { s with domain := d } := by
  rcases hTables with ⟨h₁, h₂, h₃, h₄, h₅, h₆, h₇, h₈⟩
  exact ⟨h₁, h₂, h₃, h₄, h₅, h₆, h₇, h₈⟩

theorem TableData.inOrder_new {d generation : Nat} {node : T → Table O}
    {shared : Bool} (hShared : shared = true ↔ d = domainShared) :
    (TableData.new d shared generation node).InOrder d := by
  have hGood := start_good (show 0 < 4 by decide) shared generation node
  have hTables : Tables (start 0 shared generation node).data := hGood.tables
  refine ⟨hTables.withDomain d, hGood.generation, hShared, ?_⟩
  intro mid tab e g hRange hCached
  exact absurd hCached.symm hRange.id_ne

theorem IdData.InOrder.setTable {data : IdData O T}
    (hData : data.InOrder) {d : Nat} {x : Option (TableData O T)}
    (hTable : ∀ s, x = some s → s.InOrder d) : (data.setTable d x).InOrder := by
  intro d' s hSome
  unfold IdData.setTable at hSome
  dsimp only at hSome
  by_cases hSame : d' = d
  · subst hSame
    rw [Function.update_self] at hSome
    exact hTable s hSome
  · rw [Function.update_of_ne hSame] at hSome
    exact hData d' s hSome

theorem IdData.tables_push (data : IdData O T) (d : Nat) : (data.push d).tables = data.tables := by
  unfold IdData.push
  split <;> rfl

theorem IdData.tables_set (data : IdData O T) (d : Nat) : (data.set d).tables = data.tables := by
  unfold IdData.set
  split <;> rfl

/- What a thread starts with -/
theorem IdData.inOrder_new {d generation : Nat} {node : T → Table O}
    {s : TableData O T} (hShared : s.InOrder domainShared) :
    (IdData.new d generation node s).InOrder := by
  intro d' s' hSome
  unfold IdData.new at hSome
  dsimp only at hSome
  split at hSome
  case isTrue hSame =>
    obtain rfl := Option.some.inj hSome
    subst hSame
    exact TableData.inOrder_new decide_eq_true_iff
  case isFalse =>
    split at hSome
    case isTrue hSame =>
      obtain rfl := Option.some.inj hSome
      subst hSame
      exact hShared
    case isFalse => exact nomatch hSome

end

---
-- Allocations
---

open Option
variable {O T : Type} [DecidableEq T]

variable {s s' : TableData O T} {memory : Memory T}

/- An allocation finds a free entry, or it leaves the objects. -/
theorem idAllocate_cases {obj : O} {id : Nat} (hTables : Tables s) (hFresh : Fresh s memory)
    (hAllocate : idAllocate s memory obj = some (s', id)) :
    (id = 0 ∧ Searched s s') ∨
      ∃ s₁ t mid tab e, Offer s s₁ t mid tab e ∧
        s' = s₁.filled t e obj (nextGeneration s) ∧
        id = composeFinal (composePartial mid tab) e s.domain (nextGeneration s) := by
  have hFilled : ∀ {s₁ t mid tab e}, Offer s s₁ t mid tab e →
      fillEntry s₁ t e obj = some (s', id) →
      ∃ s₁ t mid tab e, Offer s s₁ t mid tab e ∧
        s' = s₁.filled t e obj (nextGeneration s) ∧
        id = composeFinal (composePartial mid tab) e s.domain (nextGeneration s) := by
    intro s₁ t mid tab e hOffer hFill
    rw [fillEntry_eq hOffer obj] at hFill
    obtain ⟨hState, hId⟩ := Prod.mk.inj (some.inj hFill)
    exact ⟨s₁, t, mid, tab, e, hOffer, hState.symm, hId.symm⟩
  unfold idAllocate at hAllocate
  rcases currentEntry_spec hTables with hNone | ⟨s₁, t, mid, tab, e, hFound, hOffer⟩
  · rw [hNone] at hAllocate
    rcases searchTables_spec hTables hFresh maxMidTableId 0 (by omega) with
      ⟨s₁, hEnd, hSearched, -⟩ | ⟨s₁, t, mid, tab, e, hFound, hOffer⟩ | ⟨hFail, -⟩
    · simp only [hEnd, bind_eq_bind, bind_some] at hAllocate
      obtain ⟨rfl, rfl⟩ := Prod.mk.inj (some.inj hAllocate)
      exact Or.inl ⟨rfl, hSearched⟩
    · simp only [hFound, bind_eq_bind, bind_some] at hAllocate
      exact Or.inr (hFilled hOffer hAllocate)
    · simp only [hFail, bind_eq_bind, bind_some, bind_none] at hAllocate
      exact nomatch hAllocate
  · rw [hFound] at hAllocate
    exact Or.inr (hFilled hOffer hAllocate)

/- The table that an entry with an object has been added to. -/
structure Added (s s' : TableData O T) (mid tab e : Nat) (obj : O) (g : Nat) : Prop where
  range : ∀ d, d < 4 → InRange mid tab e d g
  active :
    ∀ m b n o k,
      ActiveAt s' m b n o k ↔
        ActiveAt s m b n o k ∨
          (m = mid ∧ b = tab ∧ n = e ∧ o = obj ∧ k = g)

/- The allocation from a table in order. -/
theorem TableData.InOrder.allocate {obj : O} {d i id : Nat}
    (hOrder : s.InOrder d) (hFresh : Fresh s memory)
    (hAllocate : idAllocate { s with domain := i } memory obj =
      some (s', id)) :
    s'.InOrder d ∧
      (id = 0 ∨ ∃ mid tab e g, Added s s' mid tab e obj g ∧
        id = composeFinal (composePartial mid tab) e i g) := by
  rcases hOrder with ⟨hTables, hGen, hShared, hCache⟩
  rcases idAllocate_cases (hTables.withDomain i) hFresh hAllocate
    with ⟨hZero, hSearched⟩ | ⟨s₁, t, mid, tab, e, hOffer, rfl, hId⟩
  · rcases hSearched with ⟨hTables', hActive, hRest⟩
    refine ⟨⟨hTables', ?_, ?_, ?_⟩, Or.inl hZero⟩
    · rw [hRest.generation]
      exact hGen
    · rw [hRest.shared]
      exact hShared
    · intro m b n k hRange hCached
      rw [hRest.cacheId] at hCached
      rw [hRest.cacheObject]
      rcases hCache m b n k hRange hCached with ⟨o, hObj, hIs⟩
      exact ⟨o, hObj, (hActive m b n o k).mpr hIs⟩
  · have hGen' := nextGeneration_lt (show ({ s with domain := i } :
      TableData O T).generation < maxGenerations from hGen)
    have hTables' := hOffer.tables obj _ hGen'
    have hActive := hOffer.active obj (nextGeneration { s with domain := i })
    have hNew := (hActive mid tab e obj _).mpr (Or.inr ⟨rfl, rfl, rfl, rfl, rfl⟩)
    refine ⟨⟨hTables', hGen', ?_, ?_⟩, Or.inr ⟨mid, tab, e, _, ⟨?_, hActive⟩, hId⟩⟩
    · change s₁.shared = true ↔ _
      rw [hOffer.rest.shared]
      exact hShared
    · intro m b n k hRange hCached
      have hCached' : s₁.cacheId =
          composeFinal (composePartial m b) n d k := hCached
      rw [hOffer.rest.cacheId] at hCached'
      rcases hCache m b n k hRange hCached' with ⟨o, hObj, hIs⟩
      refine ⟨o, ?_, (hActive m b n o k).mpr (Or.inl hIs)⟩
      change s₁.cacheObject = some o
      rw [hOffer.rest.cacheObject]
      exact hObj
    · intro d' hDomain
      have hRange := (hTables'.withDomain d').inRange hDomain
        (show ActiveAt { s₁.filled t e obj _ with domain := d' } mid tab e obj _ from hNew)
      exact hRange

---
-- Releases and Lookups
---

section

variable {s : TableData O T} {mid tab e d g : Nat}

/- A release in a table in order -/
theorem TableData.InOrder.release {s' : TableData O T}
    (hOrder : s.InOrder d) (hRange : InRange mid tab e d g) (hRelease :
    idRelease s (composeFinal (composePartial mid tab) e d g) = some s') : s'.InOrder d := by
  by_cases hSome : ∃ obj, ActiveAt s mid tab e obj g
  · rcases hSome with ⟨obj, hActive⟩
    rcases idRelease_spec hOrder.tables hRange hActive with
      ⟨s'', hRelease', hTables, hActive', hOff⟩
    rw [hRelease] at hRelease'
    obtain rfl := some.inj hRelease'
    refine ⟨hTables, ?_, ?_, ?_⟩
    · rw [hOff.generation]
      exact hOrder.generation
    · rw [hOff.shared]
      exact hOrder.shared
    · intro m b n k hRange' hCached
      rw [hOff.cacheId] at hCached
      split at hCached
      case isTrue => exact absurd hCached.symm hRange'.id_ne
      case isFalse hNe =>
        rcases hOrder.cache m b n k hRange' hCached with ⟨o, hObj, hIs⟩
        refine ⟨o, ?_, (hActive' m b n o k).mpr ⟨hIs, ?_⟩⟩
        · rw [hOff.cacheObject hNe]
          exact hObj
        · rintro ⟨rfl, rfl, rfl⟩
          rw [hCached, (hIs.unique hActive).2] at hNe
          exact hNe rfl
  · have hNone := not_exists.mp hSome
    rw [idRelease_none hOrder.tables hRange hNone] at hRelease
    obtain rfl := some.inj hRelease
    exact hOrder

/- The lookup in a table in order -/
theorem TableData.InOrder.lookup (hOrder : s.InOrder d)
    (hRange : InRange mid tab e d g) :
    ∃ s' found, Ids.objPointerGet s
        (composeFinal (composePartial mid tab) e d g) =
          some (s', found) ∧
      s'.InOrder d ∧ ∀ obj, found = some obj ↔ ActiveAt s mid tab e obj g := by
  unfold Ids.objPointerGet
  split
  case isTrue hCached =>
    rcases hOrder.cache mid tab e g hRange hCached.symm with ⟨o, hObj, hActive⟩
    refine ⟨s, _, rfl, hOrder, fun obj => ?_⟩
    rw [hObj]
    constructor
    · intro hSame
      obtain rfl := some.inj hSame
      exact hActive
    · intro hIs
      rw [(hActive.unique hIs).1]
  case isFalse =>
    rw [if_neg hRange.id_ne, if_neg hRange.tagOf_ne]
    rcases entryAt_spec hOrder.tables hRange with ⟨t, o, hFound, hAt, hHolds⟩ | ⟨hFound, hNone⟩
    · have hActive : ActiveAt s mid tab e o g := ⟨t, hAt, hHolds⟩
      rw [hFound]
      refine ⟨_, _, rfl, ?_, fun obj => ?_⟩
      · rcases hOrder with ⟨⟨h₁, h₂, h₃, h₄, h₅, h₆, h₇, h₈⟩, hGen, hShared, -⟩
        refine ⟨⟨h₁, h₂, h₃, h₄, h₅, h₆, h₇, h₈⟩, hGen, hShared, ?_⟩
        intro m b n k hRange' hCached
        obtain ⟨rfl, rfl, rfl, rfl⟩ := hRange.injective hRange' hCached
        exact ⟨o, hHolds.ptr, hActive⟩
      · rw [hHolds.ptr]
        constructor
        · intro hSame
          obtain rfl := some.inj hSame
          exact hActive
        · intro hIs
          rw [(hActive.unique hIs).1]
    · rw [hFound]
      refine ⟨s, none, rfl, hOrder, fun obj => ?_⟩
      constructor
      · intro hSome
        exact nomatch hSome
      · intro hIs
        exact absurd hIs (hNone obj)

end

variable {data : IdData O T}

/- What is found is what an entry of the id's domain has. -/
theorem IdData.InOrder.found_iff {mid tab e d g : Nat}
    (hData : data.InOrder) (hRange : InRange mid tab e d g) (obj : O) :
    data.Found
        (composeFinal (composePartial mid tab) e d g) obj ↔
      ∃ s, data.tables d = some s ∧ ActiveAt s mid tab e obj g := by
  unfold IdData.Found IdData.objPointerGet
  rw [hRange.domainOf_eq]
  cases hTable : data.tables d with
  | none =>
    constructor
    · rintro ⟨data', hNone⟩
      exact nomatch (Prod.mk.inj (some.inj hNone)).2
    · rintro ⟨s, hSome, -⟩
      exact nomatch hSome
  | some s =>
    rcases (hData d s hTable).lookup hRange with ⟨s', found, hLookup, -, hIff⟩
    simp only [hLookup, bind_eq_bind, bind_some]
    constructor
    · rintro ⟨data', hSame⟩
      have hFound := (Prod.mk.inj (some.inj hSame)).2
      exact ⟨s, rfl, (hIff obj).mp hFound⟩
    · rintro ⟨s'', hSame, hActive⟩
      obtain rfl := some.inj hSame
      rw [(hIff obj).mpr hActive]
      exact ⟨_, rfl⟩

---
-- Reachable Tables
---

/- The bits of a domain that an id has. -/
theorem composeFinal_domain (p e d g : Nat) :
    composeFinal p e d g = composeFinal p e (d &&& 3) g := by
  unfold composeFinal
  rw [Nat.and_assoc, Nat.and_self]

/- What an allocation does to the tables of a thread. -/
theorem IdData.InOrder.allocate {data' : IdData O T} {obj : O}
    {parentId id : Nat} (hData : data.InOrder) (hFresh : data.Fresh memory parentId)
    (hAllocate : data.allocate memory obj parentId = some (data', id)) :
    data'.InOrder ∧
      (id = 0 ∨ ∃ s s' mid tab e g, data.tableDomain parentId < 4 ∧
        data.tables (data.tableDomain parentId) = some s ∧
        data' = data.setTable (data.tableDomain parentId) (some s') ∧
        Added s s' mid tab e obj g ∧ id = composeFinal
        (composePartial mid tab) e (data.idDomain s &&& 3) g) := by
  unfold IdData.allocate at hAllocate
  split at hAllocate
  case isTrue => exact nomatch hAllocate
  case isFalse hDomain =>
    cases hTable : data.tables (data.tableDomain parentId) with
    | none =>
      rw [hTable] at hAllocate
      obtain ⟨rfl, rfl⟩ := Prod.mk.inj (some.inj hAllocate)
      exact ⟨hData, Or.inl rfl⟩
    | some s =>
      simp only [hTable, bind_eq_bind, bind_eq_some_iff] at hAllocate
      rcases hAllocate with ⟨⟨s', id'⟩, hStep, hSame⟩
      obtain ⟨rfl, rfl⟩ := Prod.mk.inj (some.inj hSame)
      rcases (hData _ s hTable).allocate (hFresh s hTable) hStep with ⟨hOrder, hId⟩
      refine ⟨hData.setTable ?_, ?_⟩
      · intro s'' hSome
        obtain rfl := some.inj hSome
        exact hOrder
      · rcases hId with hZero | ⟨mid, tab, e, g, hAdded, hId⟩
        · exact Or.inl hZero
        · refine Or.inr ⟨s, s', mid, tab, e, g, Nat.lt_of_not_le hDomain, rfl, rfl, hAdded, ?_⟩
          rw [← composeFinal_domain]
          exact hId

/- The tables that a thread can have are in order. -/
theorem Reachable.inOrder (hReachable : Reachable data) : data.InOrder := by
  induction hReachable with
  | start domain generation generation' node node' hDomain =>
    exact IdData.inOrder_new (TableData.inOrder_new (iff_of_true rfl rfl))
  | push hData domain ih =>
    unfold IdData.InOrder
    rw [IdData.tables_push]
    exact ih
  | pop hData ih => exact ih
  | set hData domain ih =>
    unfold IdData.InOrder
    rw [IdData.tables_set]
    exact ih
  | adopt hData hForeign ih ihForeign =>
    unfold IdData.adopt
    split
    case isTrue => exact ih
    case isFalse =>
      split
      case isTrue => exact ih
      case isFalse =>
        unfold IdData.InOrder
        rw [IdData.tables_push]
        exact ih.setTable (ihForeign _)
  | giveBack hData domain ih =>
    unfold IdData.giveBack
    split
    case isTrue => exact ih
    case isFalse =>
      split
      case isTrue => exact ih
      case isFalse =>
        have hSet : ∀ s : TableData O T, none = some s → s.InOrder domain := by
          intro s hSome
          exact nomatch hSome
        exact ih.setTable hSet
  | others hData hForeign d hBoth ih ihForeign =>
    exact ih.setTable (ihForeign d)
  | allocate hData memory obj parentId id hFresh hStep ih =>
    exact (ih.allocate hFresh hStep).1
  | @release data data' hData id hId hStep ih =>
    rcases hId with ⟨mid, tab, e, d, g, hRange, rfl⟩
    unfold IdData.release at hStep
    rw [hRange.domainOf_eq] at hStep
    cases hTable : data.tables d with
    | none =>
      rw [hTable] at hStep
      obtain rfl := some.inj hStep
      exact ih
    | some s =>
      simp only [hTable, bind_eq_bind, bind_eq_some_iff] at hStep
      rcases hStep with ⟨s', hRelease, hSame⟩
      obtain rfl := some.inj hSame
      refine ih.setTable ?_
      intro s'' hSome
      obtain rfl := some.inj hSome
      exact (ih d s hTable).release hRange hRelease
  | @lookup data data' hData id hId obj hStep ih =>
    rcases hId with ⟨mid, tab, e, d, g, hRange, rfl⟩
    unfold IdData.objPointerGet at hStep
    rw [hRange.domainOf_eq] at hStep
    cases hTable : data.tables d with
    | none =>
      rw [hTable] at hStep
      obtain ⟨rfl, -⟩ := Prod.mk.inj (some.inj hStep)
      exact ih
    | some s =>
      rcases (ih d s hTable).lookup hRange with ⟨s', found, hLookup, hOrder, -⟩
      simp only [hTable, hLookup, bind_eq_bind, bind_some] at hStep
      obtain ⟨rfl, -⟩ := Prod.mk.inj (some.inj hStep)
      refine ih.setTable ?_
      intro s'' hSome
      obtain rfl := some.inj hSome
      exact hOrder

---
-- Ids of New Objects
---

omit [DecidableEq T] in
/-
  The id of a new object has the domain of its table when the
  parent is shared, or of the domain on the stack, or missing.
-/
theorem tableDomain_eq_iff {parentId : Nat}
    (hLt : data.tableDomain parentId < 4) (hShared :
    s.shared = true ↔ data.tableDomain parentId = domainShared) :
    data.tableDomain parentId = data.idDomain s &&& 3 ↔
      parentId = 0 ∨ domainOf parentId = domainShared ∨ domainOf parentId = data.current &&& 3 := by
  have hMask : ∀ n, n < 4 → n &&& 3 = n := by
    intro n hn
    rw [show (3 : Nat) = 2 ^ 2 - 1 from rfl, Nat.and_two_pow_sub_one_eq_mod, Nat.mod_eq_of_lt hn]
  unfold IdData.idDomain
  by_cases hBoth : s.shared = true
  · rw [if_pos hBoth, hShared.mp hBoth]
    refine iff_of_true (hMask 1 (by decide)).symm ?_
    have hTable := hShared.mp hBoth
    unfold IdData.tableDomain at hTable
    split at hTable
    case isTrue hZero => exact Or.inl hZero
    case isFalse => exact Or.inr (Or.inl hTable)
  · rw [if_neg hBoth]
    have hOther := fun hSame => hBoth (hShared.mpr hSame)
    unfold IdData.tableDomain at hLt hOther ⊢
    by_cases hZero : parentId = 0
    · rw [if_pos hZero] at hLt ⊢
      exact iff_of_true (hMask _ hLt).symm (Or.inl hZero)
    · rw [if_neg hZero] at hOther ⊢
      constructor
      · intro hSame
        exact Or.inr (Or.inr hSame)
      · rintro (hNull | hIs | hSame)
        · exact absurd hNull hZero
        · exact absurd hIs hOther
        · exact hSame

/-
  The id of a new object gives the object if there is no
  parent, if the parent is in the shared domain or if it is in
  the domain on the stack, and else it does not.
-/
theorem allocate_found_iff {data data' : IdData O T} {memory : Memory T}
    {obj : O} {parentId id : Nat} (hReachable : Reachable data)
    (hFresh : data.Fresh memory parentId)
    (hAllocate : data.allocate memory obj parentId =
      some (data', id))
    (hId : id ≠ 0) :
    (parentId = 0 ∨ domainOf parentId = domainShared ∨
        domainOf parentId = data.current &&& 3 → data'.Found id obj) ∧
    (data.New obj → data'.Found id obj →
      parentId = 0 ∨ domainOf parentId = domainShared ∨
        domainOf parentId = data.current &&& 3) := by
  have hOrder := hReachable.inOrder
  rcases hOrder.allocate hFresh hAllocate with ⟨hOrder', hZero |
    ⟨s, s', mid, tab, e, g, hLt, hTable, hData', hAdded, hIs⟩⟩
  · exact absurd hZero hId
  have hIff := tableDomain_eq_iff hLt (hOrder _ s hTable).shared
  have hRange := hAdded.range (data.idDomain s &&& 3)
    (Nat.lt_of_le_of_lt Nat.and_le_right (by decide))
  rw [← hIff, hIs, hOrder'.found_iff hRange]
  constructor
  · intro hSame
    refine ⟨s', ?_, ?_⟩
    · rw [hData', hSame]
      exact update_self _ _ _
    · exact (hAdded.active mid tab e obj g).mpr
        (Or.inr ⟨rfl, rfl, rfl, rfl, rfl⟩)
  · rintro hNew ⟨s'', hSome, hActive⟩
    by_contra hNe
    rw [hData'] at hSome
    unfold IdData.setTable at hSome
    dsimp only at hSome
    rw [update_of_ne (Ne.symm hNe)] at hSome
    exact hNew _ s'' hSome mid tab e g hActive

/- The main thread, before its first object -/
def mainStart : IdData Nat Nat :=
  .new domainMain 0 (fun _ => Table.zero)
    (.new domainShared true 0 fun _ => Table.zero)

theorem mainStart_reachable : Reachable mainStart := .start domainMain 0 0 _ _ (Or.inl rfl)

/- The first object of the main thread -/
theorem allocate_found_sample :
    ∃ data', mainStart.allocate ⟨true, some 3⟩ 7 0 =
        some (data', 2 ^ 46 + 1) ∧
      data'.Found (2 ^ 46 + 1) 7 := by
  have hId : (mainStart.allocate ⟨true, some 3⟩ 7 0).map
      Prod.snd = some (2 ^ 46 + 1) := by decide
  rcases map_eq_some_iff.mp hId with
    ⟨⟨data', id⟩, hAllocate, rfl⟩
  refine ⟨data', hAllocate, (allocate_found_iff
    mainStart_reachable ?_ hAllocate ?_).1 (Or.inl rfl)⟩
  · intro s hTable
    obtain rfl := some.inj hTable
    intro t hMemory hLive
    exact absurd hLive (Finset.notMem_empty t)
  · exact Nat.succ_ne_zero _

/-
  With the shared domain on the stack, a child of the first
  object gets an id that gives nothing.
-/
theorem allocate_child_lost :
    ¬ ∀ (data data' : IdData Nat Nat) (memory : Memory Nat)
        (obj parentId id : Nat),
        Reachable data →
        data.Fresh memory parentId →
        data.allocate memory obj parentId = some (data', id) →
        id ≠ 0 →
        data'.Found id obj := by
  intro hClaim
  have hRun : ((mainStart.allocate ⟨true, some 3⟩ 7 0).bind fun first =>
      ((first.1.push domainShared).allocate ⟨true, none⟩ 8 first.2).bind
      fun child => (child.1.objPointerGet child.2).map fun found =>
      (decide (child.2 = 0), found.2)) =
      some (false, none) := by decide
  rcases bind_eq_some_iff.mp hRun with
    ⟨⟨data, first⟩, hFirst, hRun⟩
  rcases bind_eq_some_iff.mp hRun with
    ⟨⟨data', child⟩, hChild, hRun⟩
  rcases map_eq_some_iff.mp hRun with
    ⟨⟨data'', found⟩, hLookup, hSame⟩
  obtain ⟨hId, rfl⟩ := Prod.mk.inj hSame
  have hReachable : Reachable data := by
    refine .allocate mainStart_reachable _ _ _ _ ?_ hFirst
    intro s hTable
    obtain rfl := some.inj hTable
    intro t hMemory hLive
    exact absurd hLive (Finset.notMem_empty t)
  have hFresh : (data.push domainShared).Fresh ⟨true, none⟩ first := by
    intro s hTable t hMemory
    exact nomatch hMemory
  rcases hClaim _ _ _ _ _ _ (hReachable.push domainShared)
    hFresh hChild (of_decide_eq_false hId) with ⟨data₃, hFound⟩
  rw [hFound] at hLookup
  exact nomatch (Prod.mk.inj (some.inj hLookup)).2

end Efl.Eo.Ids
