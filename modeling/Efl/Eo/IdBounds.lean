import Efl.Eo.Domains

/-
  The indices that any word leads to.

  An id is taken apart with masks of a full power of two, and
  the arrays of tables and of entries are shorter.  A word that
  nobody gave out can lead behind the end of them.

  Main declarations:
    * `Access`, `Access.InBounds`
    * `IdData.lookupAccesses`, `IdData.releaseAccesses`
    * `ReachableByWords.sound`
    * `accesses_inBounds_iff`
-/

---
-- Accesses
---

namespace Efl.Eo.Ids

/- An element of one of the three arrays is read or written. -/
inductive Access where
  | mid (i : Nat)
  | table (i : Nat)
  | entry (i : Nat)

def Access.InBounds : Access → Prop
  | .mid i => i < maxMidTableId
  | .table i => i < maxTableId
  | .entry i => i < maxEntryId

variable {O T : Type}

/- The way from the mid tables to the entry of an id -/
def entryAccesses (s : TableData O T) (id : Nat) : List Access :=
  .mid (midOf id) ::
    match s.idsTables (midOf id) with
    | none => []
    | some row =>
      .table (tabOf id) ::
        match row (tabOf id) with
        | none => []
        | some _ => [.entry (entryOf id)]

/- `_eo_obj_pointer_get` of a table -/
def lookupAccesses (s : TableData O T) (id : Nat) : List Access :=
  if id = s.cacheId then
    []
  else if id = 0 then
    []
  else if tagOf id = 0 then
    []
  else
    entryAccesses s id

/- The entry behind which a released one is put -/
def tailAccesses (table : Table O) : List Access :=
  match table.fifoTail with
  | none => []
  | some e => [.entry e]

/- The place of a table that has become empty is cleared. -/
def dropAccesses (table : Table O) (id : Nat) : List Access :=
  if table.freeEntries + 1 = maxEntryId then
    [.mid (midOf id), .table (tabOf id)]
  else
    []

section

variable [DecidableEq T]

/- `_eo_id_release` of a table -/
def releaseAccesses (s : TableData O T) (id : Nat) : List Access :=
  entryAccesses s id ++
    match entryAt s id with
    | some (some (t, _)) =>
      tailAccesses (s.heap.node t) ++
        dropAccesses (s.heap.node t) id
    | _ => []

end

/- `_eo_obj_pointer_get` -/
def IdData.lookupAccesses (data : IdData O T) (id : Nat) : List Access :=
  match data.tables (domainOf id) with
  | none => []
  | some s => Ids.lookupAccesses s id

/- `_eo_id_release` -/
def IdData.releaseAccesses [DecidableEq T] (data : IdData O T) (id : Nat) : List Access :=
  match data.tables (domainOf id) with
  | none => []
  | some s => Ids.releaseAccesses s id

---
-- Runs with Any Words
---

variable [DecidableEq T]

/- The words of the machine -/
def IsWord (id : Nat) : Prop :=
  id < 2 ^ 64

/-
  What a thread can have, when any words are passed as ids; no
  call goes on from an access behind an array.
-/
inductive ReachableByWords : IdData O T → Prop where
  | start
      (domain generation generation' : Nat)
      (node node' : T → Table O)
      (hDomain : domain = domainMain ∨ domain = domainThread) :
      ReachableByWords (.new domain generation node
        (.new domainShared true generation' node'))
  | push {data : IdData O T}
      (hData : ReachableByWords data) (domain : Nat) :
      ReachableByWords (data.push domain)
  | pop {data : IdData O T}
      (hData : ReachableByWords data) :
      ReachableByWords data.pop
  | set {data : IdData O T}
      (hData : ReachableByWords data) (domain : Nat) :
      ReachableByWords (data.set domain)
  | adopt {data foreign : IdData O T}
      (hData : ReachableByWords data)
      (hForeign : ReachableByWords foreign) :
      ReachableByWords (data.adopt foreign)
  | giveBack {data : IdData O T}
      (hData : ReachableByWords data) (domain : Nat) :
      ReachableByWords (data.giveBack domain)
  | others {data foreign : IdData O T}
      (hData : ReachableByWords data)
      (hForeign : ReachableByWords foreign)
      (d : Nat)
      (hBoth : (data.tables d).isSome) :
      ReachableByWords (data.setTable d (foreign.tables d))
  | allocate {data data' : IdData O T}
      (hData : ReachableByWords data)
      (memory : Memory T) (obj : O) (parentId id : Nat)
      (hWord : IsWord parentId)
      (hFresh : data.Fresh memory parentId)
      (hStep : data.allocate memory obj parentId =
        some (data', id)) :
      ReachableByWords data'
  | release {data data' : IdData O T}
      (hData : ReachableByWords data)
      (id : Nat) (hWord : IsWord id)
      (hStep : data.release id = some data') :
      ReachableByWords data'
  | lookup {data data' : IdData O T}
      (hData : ReachableByWords data)
      (id : Nat) (hWord : IsWord id) (obj : Option O)
      (hStep : data.objPointerGet id = some (data', obj)) :
      ReachableByWords data'

/- What all tables of a thread keep for any words -/
structure TableData.Sound (s : TableData O T) : Prop where
  tables : Tables s
  generation : s.generation < maxGenerations

def IdData.Sound (data : IdData O T) : Prop :=
  ∀ d s, data.tables d = some s → s.Sound

/- The numbers of a word are those of a place, or of none. -/
def TableData.LeadsInside (s : TableData O T) (id : Nat) : Prop :=
  ∀ row, s.idsTables (midOf id) = some row →
    tabOf id < maxTableId ∧
      ((row (tabOf id)).isSome → entryOf id < maxEntryId)

---
-- One Table
---

open Option

theorem midOf_lt (id : Nat) : midOf id < maxMidTableId := by
  have hMask : midOf id = (id >>> 32) % 2048 := Nat.and_two_pow_sub_one_eq_mod _ 11
  rw [hMask]
  exact Nat.mod_lt _ (by decide)

omit [DecidableEq T] in
/- A word leads to places that the arrays have, or not. -/
theorem entryAccesses_inBounds_iff (s : TableData O T) (id : Nat) :
    (∀ a ∈ entryAccesses s id, a.InBounds) ↔ s.LeadsInside id := by
  have hMid := midOf_lt id
  unfold entryAccesses TableData.LeadsInside
  cases hRow : s.idsTables (midOf id) with
  | none => simp [Access.InBounds, hMid]
  | some row =>
    cases hCell : row (tabOf id) with
    | none => simp [Access.InBounds, hMid, hCell]
    | some t => simp [Access.InBounds, hMid, hCell]

/- The end of the fifo is an entry of the table. -/
theorem TableOk.tailAccesses_inBounds {table : Table O}
    (hOk : TableOk table) : ∀ a ∈ tailAccesses table, a.InBounds := by
  rcases hOk with ⟨hStart, -, -, es, hQueue, hMem⟩
  unfold tailAccesses
  cases hTail : table.fifoTail with
  | none => simp
  | some e =>
    have hLast : es.getLast? = some e := hQueue.tail.symm.trans hTail
    have hBelow := (hMem e).mp (List.mem_of_getLast? hLast)
    have hEntry : e < maxEntryId := by omega
    intro a hIn
    obtain rfl := List.mem_singleton.mp hIn
    exact hEntry

section

variable {s : TableData O T} {id : Nat}

/- The lookup of an entry ends when it stays inside. -/
theorem entryAt_isSome_iff (hTables : Tables s) : (entryAt s id).isSome ↔ s.LeadsInside id := by
  unfold entryAt TableData.LeadsInside
  cases hRow : s.idsTables (midOf id) with
  | none => simp
  | some row =>
    by_cases hTab : tabOf id < maxTableId
    · cases hCell : row (tabOf id) with
      | none => simp [hTab, Nat.not_le.mpr hTab, hCell]
      | some t =>
        have hAt : s.tableAt (midOf id) (tabOf id) = some t := by
          unfold TableData.tableAt
          rw [hRow]
          exact hCell
        have hLive := hTables.live _ _ t hAt
        by_cases hEntry : entryOf id < maxEntryId
        · simp only [hTab, Nat.not_le.mpr hTab, hCell, hEntry,
            Nat.not_le.mpr hEntry, Heap.read_of_mem hLive]
          simp
          split <;> rfl
        · simp [hTab, Nat.not_le.mpr hTab, hCell, hEntry, Nat.not_lt.mp hEntry]
    · simp [hTab, Nat.not_lt.mp hTab]

/- What is found is an entry of a table that has an object. -/
theorem entryAt_found {t : T} {entry : Entry O} (hTables : Tables s)
    (hFound : entryAt s id = some (some (t, entry))) :
    s.tableAt (midOf id) (tabOf id) = some t ∧
      ((s.heap.node t).entries (entryOf id)).active = true := by
  unfold entryAt at hFound
  cases hRow : s.idsTables (midOf id) with
  | none =>
    rw [hRow] at hFound
    cases hFound
  | some row =>
    rw [hRow] at hFound
    dsimp only at hFound
    split at hFound
    case isTrue => cases hFound
    case isFalse =>
      cases hCell : row (tabOf id) with
      | none =>
        rw [hCell] at hFound
        cases hFound
      | some u =>
        have hAt : s.tableAt (midOf id) (tabOf id) = some u := by
          unfold TableData.tableAt
          rw [hRow]
          exact hCell
        have hLive := hTables.live _ _ u hAt
        rw [hCell] at hFound
        dsimp only at hFound
        split at hFound
        case isTrue => cases hFound
        case isFalse =>
          simp only [Heap.read_of_mem hLive, bind_eq_bind, bind_some] at hFound
          split at hFound
          case isTrue hMatch =>
            obtain ⟨rfl, -⟩ := Prod.mk.inj (some.inj (some.inj hFound))
            exact ⟨hAt, hMatch.1⟩
          case isFalse => cases hFound

/- The numbers of a word that leads inside are in range. -/
theorem dropAccesses_inBounds (hTab : tabOf id < maxTableId)
    (table : Table O) : ∀ a ∈ dropAccesses table id, a.InBounds := by
  unfold dropAccesses
  split
  case isTrue =>
    intro a hIn
    rcases List.mem_pair.mp hIn with rfl | rfl
    · exact midOf_lt id
    · exact hTab
  case isFalse => simp

end

---
-- Tables of Any Run
---

open Function

omit [DecidableEq T] in
theorem IdData.Sound.setTable {data : IdData O T} {d : Nat}
    {x : Option (TableData O T)} (hData : data.Sound)
    (hTable : ∀ s, x = some s → s.Sound) : (data.setTable d x).Sound := by
  intro d' s hSome
  unfold IdData.setTable at hSome
  dsimp only at hSome
  by_cases hSame : d' = d
  · subst hSame
    rw [update_self] at hSome
    exact hTable s hSome
  · rw [update_of_ne hSame] at hSome
    exact hData d' s hSome

omit [DecidableEq T] in
theorem TableData.InOrder.sound {s : TableData O T} {d : Nat}
    (hOrder : s.InOrder d) : s.Sound := ⟨hOrder.tables, hOrder.generation⟩

section

variable {s s' : TableData O T} {id : Nat}

section

variable (hSound : s.Sound)

include hSound

theorem TableData.Sound.allocate {memory : Memory T} {obj : O} {i : Nat} (hFresh : Fresh s memory)
    (hStep : idAllocate { s with domain := i } memory obj = some (s', id)) : s'.Sound := by
  rcases idAllocate_cases (hSound.tables.withDomain i) hFresh
    hStep with ⟨-, hSearched⟩ | ⟨s₁, t, mid, tab, e, hOffer, rfl, -⟩
  · refine ⟨hSearched.tables, ?_⟩
    rw [hSearched.rest.generation]
    exact hSound.generation
  · have hGen := nextGeneration_lt (show ({ s with domain := i } :
      TableData O T).generation < maxGenerations from hSound.generation)
    exact ⟨hOffer.tables obj _ hGen, hGen⟩

omit [DecidableEq T] in
/- The cache is not a part of what the tables keep. -/
theorem TableData.Sound.withCache
    (cacheId : Nat) (cacheObject : Option O) :
    ({ s with
      cacheId := cacheId
      cacheObject := cacheObject } : TableData O T).Sound := by
  rcases hSound with ⟨⟨h₁, h₂, h₃, h₄, h₅, h₆, h₇, h₈⟩, hGen⟩
  exact ⟨⟨h₁, h₂, h₃, h₄, h₅, h₆, h₇, h₈⟩, hGen⟩

/- The release of any word ends when it stays inside. -/
theorem TableData.Sound.release
    (hInside : s.LeadsInside id) : ∃ s', idRelease s id = some s' ∧ s'.Sound := by
  have hTables := hSound.tables
  rcases isSome_iff_exists.mp ((entryAt_isSome_iff hTables).mpr hInside) with ⟨found, hFound⟩
  cases found with
  | none =>
    refine ⟨s, ?_, hSound⟩
    unfold idRelease
    rw [hFound]
    rfl
  | some found =>
    rcases found with ⟨t, entry⟩
    rcases entryAt_found hTables hFound with ⟨hAt, hActive⟩
    have hLive := hTables.live _ _ t hAt
    rcases recycled_spec hTables hAt hActive with ⟨hTables', -⟩
    have hNext : ∃ s₁, (if ((s.recycled t (entryOf id)).heap.node
          t).freeEntries = maxEntryId then
          dropEmpty (s.recycled t (entryOf id)) id t
        else some (s.recycled t (entryOf id))) = some s₁ ∧ s₁.Sound := by
      split
      case isTrue hFree =>
        rcases dropEmpty_spec hTables' hAt rfl rfl ((hTables'.ok _ _ t hAt).all_inactive hFree) with
          ⟨s₁, hDrop, hDropped, hRest⟩
        refine ⟨s₁, hDrop, hDropped.tables hTables', ?_⟩
        rw [hRest.generation]
        exact hSound.generation
      case isFalse => exact ⟨_, rfl, hTables', hSound.generation⟩
    rcases hNext with ⟨s₁, hNext, hSound₁⟩
    rw [idRelease_eq hFound hLive, hNext, bind_some]
    split
    case isTrue => exact ⟨_, rfl, hSound₁.withCache 0 none⟩
    case isFalse => exact ⟨_, rfl, hSound₁⟩

/- A release goes on only from a word that leads inside. -/
theorem idRelease_isSome_iff : (idRelease s id).isSome ↔ s.LeadsInside id := by
  constructor
  · intro hSome
    rw [← entryAt_isSome_iff hSound.tables]
    unfold idRelease at hSome
    cases hFound : entryAt s id with
    | none =>
      rw [hFound] at hSome
      exact nomatch hSome
    | some found => rfl
  · intro hInside
    rcases hSound.release hInside with ⟨s', hRelease, -⟩
    rw [hRelease]
    rfl

/- What makes a lookup stay inside -/
def TableData.LooksInside (s : TableData O T) (id : Nat) : Prop :=
  id = s.cacheId ∨ id = 0 ∨ tagOf id = 0 ∨ s.LeadsInside id

/- The lookup of any word ends when it stays inside. -/
theorem TableData.Sound.lookup
    (hInside : s.LooksInside id) :
    ∃ s' found, objPointerGet s id = some (s', found) ∧ s'.Sound := by
  unfold objPointerGet
  split
  case isTrue => exact ⟨s, _, rfl, hSound⟩
  case isFalse hCached =>
    split
    case isTrue => exact ⟨s, _, rfl, hSound⟩
    case isFalse hZero =>
      split
      case isTrue => exact ⟨s, _, rfl, hSound⟩
      case isFalse hTag =>
        have hLeads : s.LeadsInside id := by
          rcases hInside with h | h | h | h
          · exact absurd h hCached
          · exact absurd h hZero
          · exact absurd h hTag
          · exact h
        rcases isSome_iff_exists.mp
          ((entryAt_isSome_iff hSound.tables).mpr hLeads) with ⟨found, hFound⟩
        rw [hFound]
        cases found with
        | none => exact ⟨s, _, rfl, hSound⟩
        | some found =>
          exact ⟨_, _, rfl, hSound.withCache id found.2.ptr⟩

/- A lookup goes on only from a word that stays inside. -/
theorem objPointerGet_isSome_iff : (objPointerGet s id).isSome ↔ s.LooksInside id := by
  constructor
  · intro hSome
    unfold TableData.LooksInside
    by_contra hNot
    rw [not_or, not_or, not_or] at hNot
    rcases hNot with ⟨hCached, hZero, hTag, hLeads⟩
    rw [← entryAt_isSome_iff hSound.tables] at hLeads
    unfold objPointerGet at hSome
    rw [if_neg hCached, if_neg hZero, if_neg hTag] at hSome
    cases hFound : entryAt s id with
    | none =>
      rw [hFound] at hSome
      exact nomatch hSome
    | some found =>
      rw [hFound] at hLeads
      exact hLeads rfl
  · intro hInside
    rcases hSound.lookup hInside with ⟨s', found, hLookup, -⟩
    rw [hLookup]
    rfl

end

end

/- The tables of a thread stay sound, whatever words it uses. -/
theorem ReachableByWords.sound {data : IdData O T}
    (hReachable : ReachableByWords data) : data.Sound := by
  induction hReachable with
  | start domain generation generation' node node' hDomain =>
    intro d s hSome
    have hOrder : (IdData.new domain generation node
        (.new domainShared true generation' node')).InOrder :=
      IdData.inOrder_new (TableData.inOrder_new (iff_of_true rfl rfl))
    exact (hOrder d s hSome).sound
  | push hData domain ih =>
    unfold IdData.Sound
    rw [IdData.tables_push]
    exact ih
  | pop hData ih => exact ih
  | set hData domain ih =>
    unfold IdData.Sound
    rw [IdData.tables_set]
    exact ih
  | adopt hData hForeign ih ihForeign =>
    unfold IdData.adopt
    split
    case isTrue => exact ih
    case isFalse =>
      split
      case isTrue => exact ih
      case isFalse =>
        unfold IdData.Sound
        rw [IdData.tables_push]
        exact ih.setTable (ihForeign _)
  | giveBack hData domain ih =>
    unfold IdData.giveBack
    split
    case isTrue => exact ih
    case isFalse =>
      split
      case isTrue => exact ih
      case isFalse =>
        have hSet : ∀ s : TableData O T, none = some s → s.Sound := by
          intro s hSome
          exact nomatch hSome
        exact ih.setTable hSet
  | others hData hForeign d hBoth ih ihForeign =>
    exact ih.setTable (ihForeign d)
  | @allocate data data' hData memory obj parentId id hWord
      hFresh hStep ih =>
      unfold IdData.allocate at hStep
      split at hStep
      case isTrue => exact nomatch hStep
      case isFalse =>
        cases hTable :
            data.tables (data.tableDomain parentId) with
        | none =>
          rw [hTable] at hStep
          obtain ⟨rfl, -⟩ := Prod.mk.inj (some.inj hStep)
          exact ih
        | some s =>
          simp only [hTable, bind_eq_bind, bind_eq_some_iff] at hStep
          rcases hStep with ⟨⟨s', id'⟩, hAllocate, hSame⟩
          obtain ⟨rfl, -⟩ := Prod.mk.inj (some.inj hSame)
          refine ih.setTable ?_
          intro s'' hSome
          obtain rfl := some.inj hSome
          exact (ih _ s hTable).allocate (hFresh s hTable) hAllocate
  | @release data data' hData id hWord hStep ih =>
    unfold IdData.release at hStep
    cases hTable : data.tables (domainOf id) with
    | none =>
      rw [hTable] at hStep
      obtain rfl := some.inj hStep
      exact ih
    | some s =>
      simp only [hTable, bind_eq_bind, bind_eq_some_iff] at hStep
      rcases hStep with ⟨s', hRelease, hSame⟩
      obtain rfl := some.inj hSame
      have hSound := ih _ s hTable
      rcases hSound.release ((idRelease_isSome_iff hSound).mp
          (by rw [hRelease]; rfl)) with ⟨s'', hRelease', hSound'⟩
      rw [hRelease] at hRelease'
      refine ih.setTable ?_
      intro s₁ hSome
      obtain rfl := some.inj hSome
      obtain rfl := some.inj hRelease'
      exact hSound'
  | @lookup data data' hData id hWord obj hStep ih =>
    unfold IdData.objPointerGet at hStep
    cases hTable : data.tables (domainOf id) with
    | none =>
      rw [hTable] at hStep
      obtain ⟨rfl, -⟩ := Prod.mk.inj (some.inj hStep)
      exact ih
    | some s =>
      simp only [hTable, bind_eq_bind, bind_eq_some_iff] at hStep
      rcases hStep with ⟨⟨s', obj'⟩, hLookup, hSame⟩
      obtain ⟨rfl, -⟩ := Prod.mk.inj (some.inj hSame)
      have hSound := ih _ s hTable
      rcases hSound.lookup ((objPointerGet_isSome_iff hSound).mp
          (by rw [hLookup]; rfl)) with ⟨s'', found, hLookup', hSound'⟩
      rw [hLookup] at hLookup'
      refine ih.setTable ?_
      intro s₁ hSome
      obtain rfl := some.inj hSome
      obtain ⟨rfl, -⟩ := Prod.mk.inj (some.inj hLookup')
      exact hSound'

---
-- Accesses of Any Words
---

omit [DecidableEq T] in
theorem lookupAccesses_inBounds_iff (s : TableData O T) (id : Nat) :
    (∀ a ∈ lookupAccesses s id, a.InBounds) ↔ s.LooksInside id := by
  unfold lookupAccesses TableData.LooksInside
  split
  case isTrue hCached => simp [hCached]
  case isFalse hCached =>
    split
    case isTrue hZero => simp [hZero]
    case isFalse hZero =>
      split
      case isTrue hTag => simp [hTag]
      case isFalse hTag =>
        rw [entryAccesses_inBounds_iff]
        simp [hCached, hZero, hTag]

theorem releaseAccesses_inBounds_iff
    {s : TableData O T} (id : Nat) (hTables : Tables s) :
    (∀ a ∈ releaseAccesses s id, a.InBounds) ↔ s.LeadsInside id := by
  rw [← entryAccesses_inBounds_iff]
  unfold releaseAccesses
  constructor
  · intro hAll a hIn
    exact hAll a (List.mem_append_left _ hIn)
  · intro hAll a hIn
    rcases List.mem_append.mp hIn with hIn | hIn
    · exact hAll a hIn
    · have hLeads := (entryAccesses_inBounds_iff s id).mp hAll
      split at hIn
      case h_1 t entry hFound =>
        have hAt := (entryAt_found hTables hFound).1
        have hTab := (hTables.range _ _ t hAt).2
        rcases List.mem_append.mp hIn with hIn | hIn
        · exact (hTables.ok _ _ t hAt).tailAccesses_inBounds a hIn
        · exact dropAccesses_inBounds hTab _ a hIn
      case h_2 => exact nomatch hIn

/-
  In any run, a call with any word stays inside the arrays
  exactly when the numbers in the word are those of a place, as
  far as the tables are there.
-/
theorem accesses_inBounds_iff {data : IdData O T}
    (hReachable : ReachableByWords data) (id : Nat) :
    ((∀ a ∈ data.lookupAccesses id, a.InBounds) ↔ ∀ s,
      data.tables (domainOf id) = some s → s.LooksInside id) ∧
    ((∀ a ∈ data.releaseAccesses id, a.InBounds) ↔ ∀ s,
      data.tables (domainOf id) = some s → s.LeadsInside id) := by
  unfold IdData.lookupAccesses IdData.releaseAccesses
  cases hTable : data.tables (domainOf id) with
  | none => simp
  | some s =>
    have hTables := (hReachable.sound _ s hTable).tables
    dsimp only
    rw [lookupAccesses_inBounds_iff,
      releaseAccesses_inBounds_iff id hTables]
    simp

/- The first object of the main thread is there. -/
theorem reachableByWords_first :
    ∃ data, mainStart.allocate ⟨true, some 3⟩ 7 0 =
        some (data, 2 ^ 46 + 1) ∧
      ReachableByWords data := by
  have hId : (mainStart.allocate ⟨true, some 3⟩ 7 0).map Prod.snd = some (2 ^ 46 + 1) := by decide
  rcases map_eq_some_iff.mp hId with ⟨⟨data, id⟩, hAllocate, rfl⟩
  refine ⟨data, hAllocate, .allocate (.start domainMain 0 0 _ _
    (Or.inl rfl)) _ _ 0 _ (show 0 < 2 ^ 64 by decide) ?_ hAllocate⟩
  intro s hTable
  obtain rfl := Option.some.inj hTable
  intro t hMemory hLive
  exact absurd hLive (Finset.notMem_empty t)

/- What the first object of the main thread lets through -/
theorem accesses_inBounds_sample :
    ∃ data : IdData Nat Nat,
      (∀ a ∈ data.lookupAccesses (2 ^ 46 + 1), a.InBounds) ∧
      ∀ a ∈ data.releaseAccesses (2 ^ 46 + 1), a.InBounds := by
  rcases reachableByWords_first with ⟨data, hAllocate, hReachable⟩
  have hIff := accesses_inBounds_iff hReachable (2 ^ 46 + 1)
  have hInside : ∀ s : TableData Nat Nat,
      s.LeadsInside (2 ^ 46 + 1) := by
    intro s row hRow
    exact ⟨by decide, fun _ => by decide⟩
  exact ⟨data,
    hIff.1.mpr fun s _ => Or.inr (Or.inr (Or.inr (hInside s))),
    hIff.2.mpr fun s _ => hInside s⟩

/-
  A word with the tag and the number 2046 of a table, once the
  first mid table is there.
-/
theorem accesses_outside :
    ¬ ∀ (data : IdData Nat Nat) (id : Nat),
        ReachableByWords data →
        IsWord id →
        (∀ a ∈ data.lookupAccesses id, a.InBounds) ∧
          ∀ a ∈ data.releaseAccesses id, a.InBounds := by
  intro hClaim
  rcases reachableByWords_first with ⟨data, hAllocate, hReachable⟩
  have hRow : ((mainStart.allocate ⟨true, some 3⟩ 7 0).bind
      fun first => (first.1.tables 0).map fun s =>
        (s.cacheId, (s.idsTables 0).isSome)) =
      some (0, true) := by decide
  rw [hAllocate] at hRow
  rcases map_eq_some_iff.mp hRow with ⟨s, hTable, hSame⟩
  obtain ⟨hCached, hRow⟩ := Prod.mk.inj hSame
  rcases isSome_iff_exists.mp hRow with ⟨row, hRow⟩
  have hAll := (hClaim data (2 ^ 46 + 2046 * 2 ^ 21) hReachable
    (show 2 ^ 46 + 2046 * 2 ^ 21 < 2 ^ 64 by decide)).1
  have hDomain : domainOf (2 ^ 46 + 2046 * 2 ^ 21) = 0 := by
    decide
  have hMid : midOf (2 ^ 46 + 2046 * 2 ^ 21) = 0 := by decide
  have hTab : tabOf (2 ^ 46 + 2046 * 2 ^ 21) = 2046 := by decide
  have hBehind : ¬ Access.InBounds (.table 2046) :=
    show ¬ 2046 < 2046 by decide
  apply hBehind
  apply hAll
  unfold IdData.lookupAccesses
  rw [hDomain, hTable]
  dsimp only
  unfold lookupAccesses entryAccesses
  rw [if_neg (by rw [hCached]; decide), if_neg (by decide),
    if_neg (by decide), hMid, hTab, hRow]
  simp

end Efl.Eo.Ids
