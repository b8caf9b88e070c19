import Efl.Eina.FileMap.Model
import Mathlib.Data.List.Perm.Basic
import Mathlib.Data.List.Nodup

/-
  What is mapped for a file, and how often it is held.

  Main declarations:
    * `State`, `Inv`
    * `mapAll_spec`, `mapNew_spec`
    * `mapFree_spec`
-/

---
-- Regions
---

namespace Efl.Eina.FileMap

open List Option Function

/- A file, and how often its regions are held -/
structure State where
  file : File
  held : Nat → Nat

/- A region is handed out. -/
def State.handOut (st : State) (f : File) : Option Nat → State
  | none => ⟨f, st.held⟩
  | some addr => ⟨f, update st.held addr (st.held addr + 1)⟩

/- What `mmap` answers is not mapped yet. -/
def Fresh (f : File) (answer : Option Nat) : Prop :=
  ∀ addr, answer = some addr → addr ∉ f.mapped.map Prod.fst

/- What a record has, when it was not released -/
def content (f : File) (r : Nat) : Map :=
  (f.record r).getD ⟨0, 0, 0, 0⟩

def keyOf (f : File) (r : Nat) : Nat × Nat :=
  ((content f r).offset, (content f r).length)

def regionOf (f : File) (r : Nat) : Nat × Nat :=
  ((content f r).map, (content f r).length)

/- The region of the global map -/
def globalRegion (f : File) : List (Nat × Nat) :=
  match f.globalMap with
  | none => []
  | some g => [(g, f.length)]

/-
  The records `hs` are in the hashes, and those of `dead_map`
  are not; these and the global map are all that is mapped,
  and the counts are what is held.
-/
structure Inv (st : State) (hs : List Nat) : Prop where
  map : st.file.map = hs.map fun r => (keyOf st.file r, r)
  rmap : st.file.rmap =
    hs.map fun r => ((content st.file r).map, r)
  keys : (hs.map (keyOf st.file)).Nodup
  live : ∀ r ∈ hs ++ st.file.deadMap,
    st.file.record r = some (content st.file r)
  below : ∀ r ∈ hs ++ st.file.deadMap, r < st.file.records
  ids : (hs ++ st.file.deadMap).Nodup
  mapped : st.file.mapped.Perm (globalRegion st.file ++
    (hs ++ st.file.deadMap).map (regionOf st.file))
  once : (st.file.mapped.map Prod.fst).Nodup
  count : ∀ r ∈ hs ++ st.file.deadMap,
    (content st.file r).refcount =
      st.held (content st.file r).map ∧
    0 < st.held (content st.file r).map
  global : ∀ g, st.file.globalMap = some g →
    st.file.globalRefcount = st.held g ∧ 0 < st.held g
  noGlobal : st.file.globalMap = none →
    st.file.globalRefcount = 0
  held : ∀ addr, 0 < st.held addr →
    addr ∈ st.file.mapped.map Prod.fst
  max : ∀ addr, st.held addr ≤ 2147483647
  size : st.file.length < 18446744073709551616

variable {st : State} {hs : List Nat}

variable {length : Nat}

theorem new_spec (refcount : Int)
    (hSize : length < 18446744073709551616) : Inv ⟨File.new length refcount, fun _ => 0⟩ [] where
  map := rfl
  rmap := rfl
  keys := nodup_nil
  live _ h := absurd h (by simp [File.new])
  below _ h := absurd h (by simp [File.new])
  ids := nodup_nil
  mapped := List.Perm.nil
  once := nodup_nil
  count _ h := absurd h (by simp [File.new])
  global _ h := nomatch h
  noGlobal _ := rfl
  held _ h := absurd h (by simp)
  max _ := Nat.zero_le _
  size := hSize

variable (hInv : Inv st hs)

include hInv

/- Everything that is mapped is held. -/
theorem Inv.mapped_iff (addr : Nat) :
    addr ∈ st.file.mapped.map Prod.fst ↔ 0 < st.held addr := by
  constructor
  · intro hMem
    rcases mem_map.mp hMem with ⟨⟨a, len⟩, hIn, rfl⟩
    rcases mem_append.mp (hInv.mapped.mem_iff.mp hIn) with hGlobal | hRecord
    · unfold globalRegion at hGlobal
      split at hGlobal
      case h_1 => exact absurd hGlobal (by simp)
      case h_2 g hg =>
        obtain ⟨rfl, -⟩ := Prod.mk.inj (mem_singleton.mp hGlobal)
        exact (hInv.global a hg).2
    · rcases mem_map.mp hRecord with ⟨r, hr, hRegion⟩
      obtain ⟨rfl, -⟩ := Prod.mk.inj hRegion
      exact (hInv.count r hr).2
  · exact hInv.held addr

---
-- Addresses
---

variable {r : Nat}

theorem Inv.region_mem
    (hMem : r ∈ hs ++ st.file.deadMap) : regionOf st.file r ∈ st.file.mapped := by
  refine hInv.mapped.mem_iff.mpr (mem_append_right _ ?_)
  exact List.mem_map_of_mem hMem

variable {g : Nat}

theorem Inv.global_mem
    (hGlobal : st.file.globalMap = some g) : (g, st.file.length) ∈ st.file.mapped := by
  refine hInv.mapped.mem_iff.mpr (mem_append_left _ ?_)
  rw [globalRegion, hGlobal]
  exact mem_singleton_self _

/- The addresses of the global map and the records differ. -/
theorem Inv.addrs :
    ((globalRegion st.file).map Prod.fst ++
      (hs ++ st.file.deadMap).map fun r =>
        (content st.file r).map).Nodup := by
  have hNodup := (hInv.mapped.map Prod.fst).nodup_iff.mp hInv.once
  rw [map_append, List.map_map] at hNodup
  exact hNodup

theorem Inv.ne_global (hGlobal : st.file.globalMap = some g)
    (hMem : r ∈ hs ++ st.file.deadMap) : (content st.file r).map ≠ g := by
  have hApart := (nodup_append.mp hInv.addrs).2.2 g (by rw [globalRegion, hGlobal]; simp)
    (content st.file r).map (List.mem_map_of_mem hMem)
  exact hApart.symm

variable {q : Nat}

theorem Inv.addr_inj
    (hr : r ∈ hs ++ st.file.deadMap) (hq : q ∈ hs ++ st.file.deadMap)
    (hSame : (content st.file q).map = (content st.file r).map) : q = r :=
  inj_on_of_nodup_map (nodup_append.mp hInv.addrs).2.1 hq hr hSame

variable {addr : Nat}

/- What is not mapped is none of the addresses. -/
theorem Inv.ne_of_fresh (hFresh : addr ∉ st.file.mapped.map Prod.fst)
    (hMem : r ∈ hs ++ st.file.deadMap) : (content st.file r).map ≠ addr := by
  rintro rfl
  exact hFresh (List.mem_map_of_mem (hInv.region_mem hMem))

theorem Inv.held_of_fresh
    (hFresh : addr ∉ st.file.mapped.map Prod.fst) : st.held addr = 0 := by
  by_contra hHeld
  exact hFresh (hInv.held addr (Nat.pos_of_ne_zero hHeld))

omit hInv

---
-- References
---

open CInt

theorem content_setRecord (f : File) (r : Nat) (m : Map) : content (setRecord f r m) r = m := by
  unfold content setRecord
  dsimp only
  rw [update_self, getD_some]

theorem content_setRecord_ne (f : File) (m : Map) (hOther : q ≠ r) :
    content (setRecord f r m) q = content f q := by
  unfold content setRecord
  dsimp only
  rw [update_of_ne hOther]

variable (hInv : Inv st hs)

include hInv

/- Another count, when the region is held as often -/
theorem Inv.setCount {held : Nat → Nat} {count : Int} (hMem : r ∈ hs ++ st.file.deadMap)
    (hHeld : held (content st.file r).map = count) (hPos : 0 < held (content st.file r).map)
    (hMax : held (content st.file r).map ≤ 2147483647)
    (hOthers : ∀ addr, addr ≠ (content st.file r).map →
      held addr = st.held addr) :
    Inv ⟨setRecord st.file r { content st.file r with refcount := count }, held⟩ hs := by
  generalize hf : setRecord st.file r { content st.file r with refcount := count } = f
  have hHere : content f r = { content st.file r with refcount := count } := by
    rw [← hf]
    exact content_setRecord _ _ _
  have hOther : ∀ q, q ≠ r → content f q = content st.file q := by
    intro q hq
    rw [← hf]
    exact content_setRecord_ne _ _ hq
  have hMap : ∀ q, (content f q).map = (content st.file q).map := by
    intro q
    by_cases hq : q = r
    · rw [hq, hHere]
    · rw [hOther q hq]
  have hKey : keyOf f = keyOf st.file := by
    funext q
    unfold keyOf
    by_cases hq : q = r
    · rw [hq, hHere]
    · rw [hOther q hq]
  have hRegion : regionOf f = regionOf st.file := by
    funext q
    unfold regionOf
    by_cases hq : q = r
    · rw [hq, hHere]
    · rw [hOther q hq]
  have hDead : f.deadMap = st.file.deadMap := by rw [← hf]; rfl
  have hMapped : f.mapped = st.file.mapped := by rw [← hf]; rfl
  constructor
  case map =>
    dsimp only
    rw [hKey, ← hInv.map, ← hf]
    rfl
  case rmap =>
    simp only [hMap]
    rw [← hInv.rmap, ← hf]
    rfl
  case keys =>
    dsimp only
    rw [hKey]
    exact hInv.keys
  case live =>
    intro q hq
    dsimp only at hq ⊢
    by_cases hSame : q = r
    · rw [hSame, hHere, ← hf]
      exact update_self _ _ _
    · rw [hOther q hSame, ← hInv.live q (hDead ▸ hq), ← hf]
      exact update_of_ne hSame _ _
  case below =>
    rw [← hf]
    exact hInv.below
  case ids =>
    rw [← hf]
    exact hInv.ids
  case mapped =>
    have hGlobal : globalRegion f = globalRegion st.file := by
      rw [← hf]
      rfl
    dsimp only
    rw [hRegion, hDead, hMapped, hGlobal]
    exact hInv.mapped
  case once =>
    dsimp only
    rw [hMapped]
    exact hInv.once
  case count =>
    intro q hq
    dsimp only at hq ⊢
    rw [hMap q]
    by_cases hSame : q = r
    · rw [hSame, hHere]
      exact ⟨hHeld.symm, hPos⟩
    · have hq' : q ∈ hs ++ st.file.deadMap := hDead ▸ hq
      have hNe : (content st.file q).map ≠ (content st.file r).map :=
        fun h => hSame (hInv.addr_inj hMem hq' h)
      rw [hOther q hSame, hOthers _ hNe]
      exact hInv.count q hq'
  case global =>
    intro g hg
    have hg' : st.file.globalMap = some g := by
      rw [← hf] at hg
      exact hg
    dsimp only
    rw [hOthers g (hInv.ne_global hg' hMem).symm, ← hf]
    exact hInv.global g hg'
  case noGlobal =>
    rw [← hf]
    exact hInv.noGlobal
  case held =>
    intro addr hAddr
    dsimp only at hAddr ⊢
    rw [hMapped]
    by_cases hSame : addr = (content st.file r).map
    · rw [hSame]
      exact List.mem_map_of_mem (hInv.region_mem hMem)
    · exact hInv.held addr (hOthers addr hSame ▸ hAddr)
  case max =>
    intro addr
    dsimp only
    by_cases hSame : addr = (content st.file r).map
    · rw [hSame]
      exact hMax
    · rw [hOthers addr hSame]
      exact hInv.max addr
  case size =>
    rw [← hf]
    exact hInv.size

---
-- The Global Map
---

/- Another count of the global map, held as often -/
theorem Inv.setGlobal {held : Nat → Nat} {count : Int} (hGlobal : st.file.globalMap = some g)
    (hHeld : held g = count) (hPos : 0 < held g) (hMax : held g ≤ 2147483647)
    (hOthers : ∀ addr, addr ≠ g → held addr = st.held addr) :
    Inv ⟨{ st.file with globalRefcount := count }, held⟩ hs where
  map := hInv.map
  rmap := hInv.rmap
  keys := hInv.keys
  live := hInv.live
  below := hInv.below
  ids := hInv.ids
  mapped := hInv.mapped
  once := hInv.once
  count r hr := by
    have hNe := hInv.ne_global hGlobal hr
    show (content st.file r).refcount = _ ∧ _
    dsimp only
    rw [show content { st.file with globalRefcount := count } r =
      content st.file r from rfl, hOthers _ hNe]
    exact hInv.count r hr
  global g' hg' := by
    obtain rfl : g' = g := some.inj (hg'.symm.trans hGlobal)
    exact ⟨hHeld.symm, hPos⟩
  noGlobal hNone := nomatch hGlobal.symm.trans hNone
  held addr hAddr := by
    by_cases hSame : addr = g
    · rw [hSame]
      exact List.mem_map_of_mem (hInv.global_mem hGlobal)
    · exact hInv.held addr (hOthers addr hSame ▸ hAddr)
  max addr := by
    by_cases hSame : addr = g
    · rw [hSame]
      exact hMax
    · exact (hOthers addr hSame).le.trans (hInv.max addr)
  size := hInv.size

/- A global map that is new, and held once -/
theorem Inv.newGlobal (hNone : st.file.globalMap = none)
    (hFresh : addr ∉ st.file.mapped.map Prod.fst) :
    Inv ⟨{ mmap st.file addr st.file.length with
          globalMap := some addr
          globalRefcount := 1 }, update st.held addr 1⟩ hs where
  map := hInv.map
  rmap := hInv.rmap
  keys := hInv.keys
  live := hInv.live
  below := hInv.below
  ids := hInv.ids
  mapped := by
    have hMapped := hInv.mapped
    rw [globalRegion, hNone] at hMapped
    exact hMapped.cons (addr, st.file.length)
  once := nodup_cons.mpr ⟨hFresh, hInv.once⟩
  count r hr := by
    have hNe := hInv.ne_of_fresh hFresh hr
    have hCount := hInv.count r hr
    rw [← update_of_ne hNe 1 st.held] at hCount
    exact hCount
  global g hg := by
    obtain rfl := some.inj hg
    dsimp only
    rw [update_self]
    exact ⟨rfl, Nat.zero_lt_one⟩
  noGlobal h := nomatch h
  held a ha := by
    by_cases hSame : a = addr
    · rw [hSame]
      exact mem_cons_self
    · dsimp only at ha
      rw [update_of_ne hSame] at ha
      exact mem_cons_of_mem _ (hInv.held a ha)
  max a := by
    dsimp only
    by_cases hSame : a = addr
    · rw [hSame, update_self]
      decide
    · rw [update_of_ne hSame]
      exact hInv.max a
  size := hInv.size

variable {f : File}

omit hInv in
theorem mapAll_of_global (answer : Option Nat)
    (hGlobal : f.globalMap = some g) :
    mapAll f answer = ({ f with globalRefcount := wrap (f.globalRefcount + 1) }, some g) := by
  cases f
  dsimp only at hGlobal
  rw [hGlobal]
  rfl

omit hInv in
theorem mapAll_of_none (hGlobal : f.globalMap = none) : mapAll f none = (f, none) := by
  cases f
  dsimp only at hGlobal
  rw [hGlobal]
  rfl

omit hInv in
theorem mapAll_of_new (addr : Nat) (hGlobal : f.globalMap = none) :
    mapAll f (some addr) =
      ({ mmap f addr f.length with
          globalMap := some addr
          globalRefcount := wrap (f.globalRefcount + 1) }, some addr) := by
  cases f
  dsimp only at hGlobal
  rw [hGlobal]
  rfl

theorem mapAll_spec {answer : Option Nat} (hFresh : Fresh st.file answer)
    (hCountable : ∀ addr, st.held addr < 2147483647) :
    Inv (st.handOut (mapAll st.file answer).1 (mapAll st.file answer).2) hs := by
  cases hGlobal : st.file.globalMap with
  | some g =>
    have hCount := (hInv.global g hGlobal).1
    have hBound := hCountable g
    have hWrap : wrap (st.file.globalRefcount + 1) = (st.held g + 1 : Nat) := by
      rw [wrap_of_inRange] <;> [skip; unfold InRange] <;> omega
    rw [mapAll_of_global answer hGlobal, hWrap]
    refine hInv.setGlobal hGlobal ?_ ?_ ?_ ?_
    · rw [update_self]
    · rw [update_self]
      exact Nat.succ_pos _
    · rw [update_self]
      omega
    · exact fun addr hNe => update_of_ne hNe _ _
  | none =>
    cases answer with
    | none =>
      rw [mapAll_of_none hGlobal]
      exact hInv
    | some addr =>
      have hNotMapped := hFresh addr rfl
      have hWrap : wrap (st.file.globalRefcount + 1) = 1 := by
        rw [hInv.noGlobal hGlobal]
        decide
      rw [mapAll_of_new addr hGlobal, hWrap, State.handOut, hInv.held_of_fresh hNotMapped]
      exact hInv.newGlobal hGlobal hNotMapped

/- The global map is held by nobody, and unmapped. -/
theorem Inv.dropGlobal
    (hGlobal : st.file.globalMap = some g) :
    Inv ⟨{ st.file with
          mapped := st.file.mapped.erase (g, st.file.length)
          globalMap := none
          globalRefcount := 0 }, update st.held g 0⟩ hs := by
  have hMapped := hInv.mapped
  rw [globalRegion, hGlobal] at hMapped
  have hErase := hMapped.erase (g, st.file.length)
  rw [singleton_append, erase_cons_head] at hErase
  have hSplit := (perm_cons_erase (hInv.global_mem hGlobal)).map Prod.fst
  have hNodup := hSplit.nodup_iff.mp hInv.once
  rw [map_cons, nodup_cons] at hNodup
  exact
    { map := hInv.map
      rmap := hInv.rmap
      keys := hInv.keys
      live := hInv.live
      below := hInv.below
      ids := hInv.ids
      mapped := hErase
      once := hNodup.2
      count := by
        intro r hr
        have hCount := hInv.count r hr
        rw [← update_of_ne (hInv.ne_global hGlobal hr) 0 st.held] at hCount
        exact hCount
      global := fun g h => nomatch h
      noGlobal := fun _ => rfl
      held := by
        intro a ha
        dsimp only at ha
        by_cases hSame : a = g
        · rw [hSame, update_self] at ha
          exact absurd ha (by decide)
        · rw [update_of_ne hSame] at ha
          have hIn := (hSplit.mem_iff).mp (hInv.held a ha)
          exact (mem_cons.mp hIn).resolve_left hSame
      max := by
        intro a
        dsimp only
        by_cases hSame : a = g
        · rw [hSame, update_self]
          decide
        · rw [update_of_ne hSame]
          exact hInv.max a
      size := hInv.size }

---
-- New Regions
---

/- One more reference to a record in the hashes or outside -/
theorem Inv.refRecord (hMem : r ∈ hs ++ st.file.deadMap)
    (hCountable : st.held (content st.file r).map < 2147483647) :
    ∃ f, refRecord st.file r =
        some (f, some (content st.file r).map) ∧
      Inv (st.handOut f (some (content st.file r).map)) hs := by
  have hCount := (hInv.count r hMem).1
  have hWrap : wrap ((content st.file r).refcount + 1) =
      (st.held (content st.file r).map + 1 : Nat) := by
    rw [wrap_of_inRange] <;> [skip; unfold InRange] <;> omega
  refine ⟨setRecord st.file r { content st.file r with
    refcount := (st.held (content st.file r).map + 1 : Nat) }, ?_, ?_⟩
  · unfold FileMap.refRecord
    rw [hInv.live r hMem]
    dsimp only [bind_eq_bind, bind_some]
    rw [hWrap]
  · refine hInv.setCount hMem ?_ ?_ ?_ ?_
    · rw [update_self]
    · rw [update_self]
      exact Nat.succ_pos _
    · rw [update_self]
      omega
    · exact fun addr hNe => update_of_ne hNe _ _

/- A record of a new region, which is held once -/
def withRegion (f : File) (addr offset length : Nat) : File :=
  { f with
    map := ((offset, length), f.records) :: f.map
    rmap := (addr, f.records) :: f.rmap
    record := update f.record f.records
      (some ⟨addr, offset, length, 1⟩)
    records := f.records + 1
    mapped := (addr, length) :: f.mapped }

omit hInv in
theorem content_withRegion (f : File) (addr offset length : Nat) :
    content (withRegion f addr offset length) f.records = ⟨addr, offset, length, 1⟩ := by
  unfold content withRegion
  dsimp only
  rw [update_self, getD_some]

omit hInv in
theorem content_withRegion_ne (f : File) (addr offset length : Nat)
    (hOther : r ≠ f.records) : content (withRegion f addr offset length) r = content f r := by
  unfold content withRegion
  dsimp only
  rw [update_of_ne hOther]

theorem Inv.newRegion {offset : Nat}
    (hFresh : addr ∉ st.file.mapped.map Prod.fst)
    (hKey : (offset, length) ∉ hs.map (keyOf st.file)) :
    Inv ⟨withRegion st.file addr offset length, update st.held addr 1⟩ (st.file.records :: hs) := by
  generalize hf : withRegion st.file addr offset length = f
  have hHere : content f st.file.records = ⟨addr, offset, length, 1⟩ := by
    rw [← hf]
    exact content_withRegion _ _ _ _
  have hOther : ∀ r ∈ hs ++ st.file.deadMap, content f r = content st.file r := by
    intro r hr
    rw [← hf]
    exact content_withRegion_ne _ _ _ _ (hInv.below r hr).ne
  have hOld : ∀ r ∈ hs, content f r = content st.file r :=
    fun r hr => hOther r (mem_append_left _ hr)
  have hDead : f.deadMap = st.file.deadMap := by rw [← hf]; rfl
  have hKeyHere : keyOf f st.file.records = (offset, length) := by
    unfold keyOf
    rw [hHere]
  have hKeys : hs.map (keyOf f) = hs.map (keyOf st.file) := by
    apply map_congr_left
    intro r hr
    unfold keyOf
    rw [hOld r hr]
  have hRegions : (hs ++ st.file.deadMap).map (regionOf f) =
      (hs ++ st.file.deadMap).map (regionOf st.file) := by
    apply map_congr_left
    intro r hr
    unfold regionOf
    rw [hOther r hr]
  have hNew : st.file.records ∉ hs ++ st.file.deadMap :=
    fun h => absurd (hInv.below _ h) (Nat.lt_irrefl _)
  constructor
  case map =>
    dsimp only
    rw [map_cons, hKeyHere, ← hf]
    show _ :: st.file.map = _
    rw [hInv.map, hf]
    congr 1
    apply map_congr_left
    intro r hr
    unfold keyOf
    rw [hOld r hr]
  case rmap =>
    dsimp only
    rw [map_cons, hHere, ← hf]
    show _ :: st.file.rmap = _
    rw [hInv.rmap, hf]
    congr 1
    apply map_congr_left
    intro r hr
    rw [hOld r hr]
  case keys =>
    dsimp only
    rw [map_cons, hKeyHere, hKeys]
    exact nodup_cons.mpr ⟨hKey, hInv.keys⟩
  case live =>
    intro r hr
    dsimp only at hr ⊢
    rw [hDead, cons_append] at hr
    rcases mem_cons.mp hr with rfl | hr
    · rw [hHere, ← hf]
      exact update_self _ _ _
    · rw [hOther r hr, ← hInv.live r hr, ← hf]
      exact update_of_ne (hInv.below r hr).ne _ _
  case below =>
    intro r hr
    dsimp only at hr ⊢
    rw [hDead, cons_append] at hr
    rw [← hf]
    rcases mem_cons.mp hr with rfl | hr
    · exact Nat.lt_succ_self _
    · exact Nat.lt_succ_of_lt (hInv.below r hr)
  case ids =>
    dsimp only
    rw [hDead, cons_append]
    exact nodup_cons.mpr ⟨hNew, hInv.ids⟩
  case mapped =>
    dsimp only
    rw [hDead, cons_append, map_cons, hRegions]
    have hRegion : regionOf f st.file.records = (addr, length) := by
      unfold regionOf
      rw [hHere]
    rw [hRegion, ← hf]
    exact (hInv.mapped.cons _).trans perm_middle.symm
  case once =>
    rw [← hf]
    exact nodup_cons.mpr ⟨hFresh, hInv.once⟩
  case count =>
    intro r hr
    dsimp only at hr ⊢
    rw [hDead, cons_append] at hr
    rcases mem_cons.mp hr with rfl | hr
    · rw [hHere]
      dsimp only
      rw [update_self]
      exact ⟨rfl, Nat.zero_lt_one⟩
    · rw [hOther r hr, update_of_ne (hInv.ne_of_fresh hFresh hr)]
      exact hInv.count r hr
  case global =>
    intro g hg
    have hg' : st.file.globalMap = some g := by
      rw [← hf] at hg
      exact hg
    have hNe : g ≠ addr := by
      rintro rfl
      exact hFresh (List.mem_map_of_mem (hInv.global_mem hg'))
    dsimp only
    rw [update_of_ne hNe, ← hf]
    exact hInv.global g hg'
  case noGlobal =>
    rw [← hf]
    exact hInv.noGlobal
  case held =>
    intro a ha
    rw [← hf]
    by_cases hSame : a = addr
    · rw [hSame]
      exact mem_cons_self
    · dsimp only at ha
      rw [update_of_ne hSame] at ha
      exact mem_cons_of_mem _ (hInv.held a ha)
  case max =>
    intro a
    dsimp only
    by_cases hSame : a = addr
    · rw [hSame, update_self]
      decide
    · rw [update_of_ne hSame]
      exact hInv.max a
  case size =>
    rw [← hf]
    exact hInv.size

omit hInv in
theorem refRecord_new (f : File) (addr offset length : Nat) :
    FileMap.refRecord
        { (newRecord (mmap f addr length) ⟨addr, offset, length, 0⟩).1 with
          map := ((offset, length), f.records) :: f.map
          rmap := (addr, f.records) :: f.rmap } f.records =
      some (withRegion f addr offset length, some addr) := by
  unfold newRecord FileMap.refRecord setRecord mmap withRegion
  dsimp only
  rw [update_self]
  dsimp only [bind_eq_bind, bind_some]
  rw [update_idem]
  rfl

theorem mapNew_spec {answer : Option Nat} {offset : Nat}
    (hFresh : Fresh st.file answer) (hRange : offset + length ≤ st.file.length)
    (hCountable : ∀ addr, st.held addr < 2147483647) :
    ∃ f addr hs', mapNew st.file answer offset length =
        some (f, addr) ∧
      Inv (st.handOut f addr) hs' := by
  have hSize := hInv.size
  unfold mapNew
  rw [if_neg (by omega), Nat.mod_eq_of_lt (by omega), if_neg (by omega)]
  split
  · exact ⟨_, _, hs, rfl, mapAll_spec hInv hFresh hCountable⟩
  cases hLookup : st.file.map.lookup (offset, length) with
  | some r =>
    have hMem : r ∈ hs := by
      rcases lookup_eq_some_iff.mp hLookup with ⟨l₁, l₂, hSplit, -⟩
      have hIn : ((offset, length), r) ∈ st.file.map := by
        rw [hSplit]
        simp
      rw [hInv.map] at hIn
      rcases mem_map.mp hIn with ⟨q, hq, hPair⟩
      exact (Prod.mk.inj hPair).2 ▸ hq
    rcases hInv.refRecord (mem_append_left _ hMem) (hCountable _) with ⟨f, hRef, hInv'⟩
    exact ⟨f, _, hs, hRef, hInv'⟩
  | none =>
    cases answer with
    | none => exact ⟨_, _, hs, rfl, hInv⟩
    | some addr =>
      have hNotMapped := hFresh addr rfl
      have hKey : (offset, length) ∉ hs.map (keyOf st.file) := by
        intro hIn
        rcases mem_map.mp hIn with ⟨r, hr, hKeyOf⟩
        have hEntry : (keyOf st.file r, r) ∈ st.file.map := by
          rw [hInv.map]
          exact List.mem_map_of_mem hr
        have hNe := lookup_eq_none_iff.mp hLookup _ hEntry
        simp [hKeyOf] at hNe
      refine ⟨withRegion st.file addr offset length, some addr, st.file.records :: hs, ?_, ?_⟩
      · exact refRecord_new st.file addr offset length
      · rw [State.handOut, hInv.held_of_fresh hNotMapped]
        exact hInv.newRegion hNotMapped hKey

---
-- Release
---

/- A file without a record, and its region -/
def dropped (f : File) (r : Nat) : File :=
  { f with
    record := update f.record r none
    mapped := f.mapped.erase (regionOf f r) }

omit hInv in
theorem mapClose_eq {m : Map} (hLive : f.record r = some m)
    (hMapped : (m.map, m.length) ∈ f.mapped) :
    mapClose f r = some { f with
      record := update f.record r none
      mapped := f.mapped.erase (m.map, m.length) } := by
  unfold mapClose
  rw [hLive]
  dsimp only [bind_eq_bind, bind_some]
  unfold munmap
  rw [if_pos hMapped]
  rfl

omit hInv in
theorem content_dropped_ne (f : File) (hOther : q ≠ r) : content (dropped f r) q = content f q := by
  unfold content dropped
  dsimp only
  rw [update_of_ne hOther]

/-
  A record that is held by nobody goes, from the hashes or
  from `dead_map`.
-/
theorem Inv.dropped {hs' dead : List Nat} (hMem : r ∈ hs ++ st.file.deadMap)
    (hLists : (hs ++ st.file.deadMap).Perm (r :: (hs' ++ dead)))
    (hSub : hs'.Sublist hs) (hf : f = { dropped st.file r with
      map := hs'.map fun q => (keyOf st.file q, q)
      rmap := hs'.map fun q => ((content st.file q).map, q)
      deadMap := dead }) :
    Inv ⟨f, update st.held (content st.file r).map 0⟩
      hs' := by
  have hNodup := hLists.nodup_iff.mp hInv.ids
  rw [nodup_cons] at hNodup
  have hOld : ∀ q ∈ hs' ++ dead, q ∈ hs ++ st.file.deadMap :=
    fun q hq => hLists.mem_iff.mpr (mem_cons_of_mem _ hq)
  have hNe : ∀ q ∈ hs' ++ dead, q ≠ r := fun q hq h => hNodup.1 (h ▸ hq)
  have hContent : ∀ q ∈ hs' ++ dead, content f q = content st.file q := by
    intro q hq
    rw [hf]
    exact content_dropped_ne _ (hNe q hq)
  have hMap : ∀ q ∈ hs' ++ dead, (content st.file q).map ≠ (content st.file r).map :=
    fun q hq h => hNe q hq (hInv.addr_inj hMem (hOld q hq) h)
  have hFront : ∀ q ∈ hs', content f q = content st.file q :=
    fun q hq => hContent q (mem_append_left _ hq)
  have hDead : f.deadMap = dead := by rw [hf]
  have hErase : f.mapped.Perm (globalRegion st.file ++ (hs' ++ dead).map (regionOf st.file)) := by
    have hAll := hInv.mapped.trans ((hLists.map (regionOf st.file)).append_left _)
    rw [map_cons] at hAll
    have hHead := (hAll.trans perm_middle).erase (regionOf st.file r)
    rw [erase_cons_head] at hHead
    rw [hf]
    exact hHead
  have hSplit := (perm_cons_erase (hInv.region_mem hMem)).map Prod.fst
  have hOnce := hSplit.nodup_iff.mp hInv.once
  rw [map_cons, nodup_cons] at hOnce
  have hMapped : f.mapped = st.file.mapped.erase (regionOf st.file r) := by
    rw [hf]
    rfl
  constructor
  case map =>
    dsimp only
    rw [hf]
    apply map_congr_left
    intro q hq
    rw [← hf]
    unfold keyOf
    rw [hFront q hq]
  case rmap =>
    dsimp only
    rw [hf]
    apply map_congr_left
    intro q hq
    rw [← hf, hFront q hq]
  case keys =>
    have hKeys : hs'.map (keyOf f) = hs'.map (keyOf st.file) := by
      apply map_congr_left
      intro q hq
      unfold keyOf
      rw [hFront q hq]
    dsimp only
    rw [hKeys]
    exact hInv.keys.sublist (hSub.map _)
  case live =>
    intro q hq
    dsimp only at hq ⊢
    rw [hDead] at hq
    rw [hContent q hq, ← hInv.live q (hOld q hq), hf]
    exact update_of_ne (hNe q hq) _ _
  case below =>
    intro q hq
    dsimp only at hq ⊢
    rw [hDead] at hq
    rw [hf]
    exact hInv.below q (hOld q hq)
  case ids =>
    dsimp only
    rw [hDead]
    exact hNodup.2
  case mapped =>
    have hRegions : (hs' ++ dead).map (regionOf f) = (hs' ++ dead).map (regionOf st.file) := by
      apply map_congr_left
      intro q hq
      unfold regionOf
      rw [hContent q hq]
    have hGlobal : globalRegion f = globalRegion st.file := by
      rw [hf]
      rfl
    dsimp only
    rw [hDead, hRegions, hGlobal]
    exact hErase
  case once =>
    dsimp only
    rw [hMapped]
    exact hOnce.2
  case count =>
    intro q hq
    dsimp only at hq ⊢
    rw [hDead] at hq
    rw [hContent q hq, update_of_ne (hMap q hq)]
    exact hInv.count q (hOld q hq)
  case global =>
    intro g hg
    have hg' : st.file.globalMap = some g := by
      rw [hf] at hg
      exact hg
    dsimp only
    rw [update_of_ne (hInv.ne_global hg' hMem).symm, hf]
    exact hInv.global g hg'
  case noGlobal =>
    rw [hf]
    exact hInv.noGlobal
  case held =>
    intro a ha
    dsimp only at ha ⊢
    rw [hMapped]
    by_cases hSame : a = (content st.file r).map
    · rw [hSame, update_self] at ha
      exact absurd ha (by decide)
    · rw [update_of_ne hSame] at ha
      have hIn := (hSplit.mem_iff).mp (hInv.held a ha)
      exact (mem_cons.mp hIn).resolve_left hSame
  case max =>
    intro a
    dsimp only
    by_cases hSame : a = (content st.file r).map
    · rw [hSame, update_self]
      decide
    · rw [update_of_ne hSame]
      exact hInv.max a
  case size =>
    rw [hf]
    exact hInv.size

omit hInv in
theorem map_erase_pair {α : Type} [BEq α] [LawfulBEq α]
    (g : Nat → α) (l : List Nat) (r : Nat) :
    (l.map fun q => (g q, q)).erase (g r, r) = (l.erase r).map fun q => (g q, q) := by
  have hInj : Function.Injective fun q => (g q, q) := fun a b h => (Prod.mk.inj h).2
  exact (map_erase hInj l).symm

/- One reference less, when there are others -/
theorem Inv.unref_many (hMem : r ∈ hs ++ st.file.deadMap)
    (hMany : 1 < st.held (content st.file r).map) (hashed : Bool) :
    ∃ f, unrefRecord st.file (content st.file r).map r hashed =
        some f ∧
      Inv ⟨f, update st.held (content st.file r).map (st.held (content st.file r).map - 1)⟩ hs := by
  have hCount := (hInv.count r hMem).1
  have hMax := hInv.max (content st.file r).map
  have hWrap : wrap ((content st.file r).refcount - 1) =
      (st.held (content st.file r).map - 1 : Nat) := by
    rw [wrap_of_inRange] <;> [skip; unfold InRange] <;> omega
  refine ⟨setRecord st.file r { content st.file r with
    refcount := (st.held (content st.file r).map - 1 : Nat) }, ?_, ?_⟩
  · unfold unrefRecord
    rw [hInv.live r hMem]
    dsimp only [bind_eq_bind, bind_some]
    rw [hWrap, if_pos (by omega)]
  · refine hInv.setCount hMem ?_ ?_ ?_ ?_
    · rw [update_self]
    · rw [update_self]
      omega
    · rw [update_self]
      omega
    · exact fun addr hNe => update_of_ne hNe _ _

/- The last reference to a record in the hashes -/
theorem Inv.unref_last (hMem : r ∈ hs)
    (hLast : st.held (content st.file r).map = 1) :
    ∃ f, unrefRecord st.file (content st.file r).map r true =
        some f ∧
      Inv ⟨f, update st.held (content st.file r).map 0⟩ (hs.erase r) := by
  have hIds : r ∈ hs ++ st.file.deadMap := mem_append_left _ hMem
  have hCount := (hInv.count r hIds).1
  have hWrap : wrap ((content st.file r).refcount - 1) = 0 := by
    rw [hCount, hLast]
    decide
  have hPerm : (hs ++ st.file.deadMap).Perm (r :: (hs.erase r ++ st.file.deadMap)) :=
    (perm_cons_erase hMem).append_right _
  have hInv' := hInv.dropped hIds hPerm erase_sublist rfl
  refine ⟨_, ?_, hInv'⟩
  have hEntry : (keyOf st.file r, r) ∈ st.file.map := by
    rw [hInv.map]
    exact List.mem_map_of_mem hMem
  unfold unrefRecord
  rw [hInv.live r hIds]
  dsimp only [bind_eq_bind, bind_some]
  rw [hWrap, if_neg (by decide), if_pos rfl]
  refine (if_pos hEntry).trans ?_
  rw [mapClose_eq (update_self r _ _)]
  · dsimp only [rmapDel, setRecord]
    have hKeys := map_erase_pair (keyOf st.file) hs r
    have hAddrs := map_erase_pair (fun q => (content st.file q).map) hs r
    rw [← hInv.map] at hKeys
    rw [← hInv.rmap] at hAddrs
    rw [update_idem, ← hKeys, ← hAddrs]
    rfl
  · exact hInv.region_mem hIds

/- The last reference to a record of `dead_map` -/
theorem Inv.unref_dead (hMem : r ∈ st.file.deadMap)
    (hLast : st.held (content st.file r).map = 1) :
    ∃ f, unrefRecord st.file (content st.file r).map r false =
        some f ∧
      Inv ⟨f, update st.held (content st.file r).map 0⟩
        hs := by
  have hIds : r ∈ hs ++ st.file.deadMap := mem_append_right _ hMem
  have hCount := (hInv.count r hIds).1
  have hWrap : wrap ((content st.file r).refcount - 1) = 0 := by
    rw [hCount, hLast]
    decide
  have hPerm : (hs ++ st.file.deadMap).Perm (r :: (hs ++ st.file.deadMap.erase r)) :=
    ((perm_cons_erase hMem).append_left hs).trans perm_middle
  have hInv' := hInv.dropped hIds hPerm (List.Sublist.refl hs) rfl
  refine ⟨_, ?_, hInv'⟩
  unfold unrefRecord
  rw [hInv.live r hIds]
  dsimp only [bind_eq_bind, bind_some]
  rw [hWrap, if_neg (by decide), if_neg (by decide), mapClose_eq (update_self r _ _)]
  · dsimp only [setRecord]
    rw [update_idem, ← hInv.map, ← hInv.rmap]
    rfl
  · exact hInv.region_mem hIds

/- The record that `dead_map` is searched for -/
omit hInv in
theorem findDead_spec {dead : List Nat} (hLive : ∀ r ∈ dead, f.record r = some (content f r))
    (hSome : ∃ r ∈ dead, (content f r).map = addr) :
    ∃ r ∈ dead, (content f r).map = addr ∧ findDead f addr dead = some (some r) := by
  induction dead with
  | nil => exact absurd hSome (by simp)
  | cons q dead ih =>
    unfold findDead
    rw [hLive q (by simp)]
    dsimp only [bind_eq_bind, bind_some]
    by_cases hHere : (content f q).map = addr
    · exact ⟨q, by simp, hHere, if_pos hHere⟩
    · rw [if_neg hHere]
      rcases hSome with ⟨r, hr, hAddr⟩
      have hRest : r ∈ dead := by
        rcases mem_cons.mp hr with rfl | hr
        · exact absurd hAddr hHere
        · exact hr
      rcases ih (fun q hq => hLive q (by simp [hq])) ⟨r, hRest, hAddr⟩ with ⟨k, hk, hMap, hFind⟩
      exact ⟨k, by simp [hk], hMap, hFind⟩

/- What is held, and not the global map, has a record. -/
theorem Inv.commonMapFree (hHeld : 0 < st.held addr)
    (hGlobal : st.file.globalMap ≠ some addr) :
    ∃ f hs', commonMapFree st.file addr = some f ∧
      Inv ⟨f, update st.held addr (st.held addr - 1)⟩ hs' := by
  unfold FileMap.commonMapFree
  cases hLookup : st.file.rmap.lookup addr with
  | some r =>
    rcases lookup_eq_some_iff.mp hLookup with ⟨l₁, l₂, hSplit, -⟩
    have hIn : (addr, r) ∈ st.file.rmap := by
      rw [hSplit]
      simp
    rw [hInv.rmap] at hIn
    rcases mem_map.mp hIn with ⟨q, hq, hPair⟩
    obtain ⟨rfl, rfl⟩ := Prod.mk.inj hPair
    by_cases hMany : 1 < st.held (content st.file q).map
    · rcases hInv.unref_many (mem_append_left _ hq) hMany true with ⟨f, hUnref, hInv'⟩
      exact ⟨f, hs, hUnref, hInv'⟩
    · have hLast : st.held (content st.file q).map = 1 := by
        omega
      rcases hInv.unref_last hq hLast with ⟨f, hUnref, hInv'⟩
      rw [hLast]
      exact ⟨f, hs.erase q, hUnref, hInv'⟩
  | none =>
    have hDead : ∃ r ∈ st.file.deadMap, (content st.file r).map = addr := by
      rcases mem_map.mp (hInv.held addr hHeld) with ⟨⟨a, len⟩, hIn, rfl⟩
      rcases mem_append.mp (hInv.mapped.mem_iff.mp hIn) with hIn | hIn
      · unfold globalRegion at hIn
        split at hIn
        case h_1 => exact absurd hIn (by simp)
        case h_2 g hg =>
          obtain ⟨rfl, -⟩ := Prod.mk.inj (mem_singleton.mp hIn)
          exact absurd hg hGlobal
      · rcases mem_map.mp hIn with ⟨r, hr, hRegion⟩
        obtain ⟨rfl, -⟩ := Prod.mk.inj hRegion
        rcases mem_append.mp hr with hr | hr
        · have hEntry : ((content st.file r).map, r) ∈ st.file.rmap := by
            rw [hInv.rmap]
            exact List.mem_map_of_mem hr
          have hNe := lookup_eq_none_iff.mp hLookup _ hEntry
          simp at hNe
        · exact ⟨r, hr, rfl⟩
    rcases findDead_spec (fun r hr =>
        hInv.live r (mem_append_right _ hr)) hDead with ⟨r, hr, rfl, hFind⟩
    dsimp only
    rw [hFind]
    dsimp only [bind_eq_bind, bind_some]
    by_cases hMany : 1 < st.held (content st.file r).map
    · rcases hInv.unref_many (mem_append_right _ hr) hMany false with ⟨f, hUnref, hInv'⟩
      exact ⟨f, hs, hUnref, hInv'⟩
    · have hLast : st.held (content st.file r).map = 1 := by
        omega
      rcases hInv.unref_dead hr hLast with ⟨f, hUnref, hInv'⟩
      rw [hLast]
      exact ⟨f, hs, hUnref, hInv'⟩

theorem mapFree_spec (hHeld : 0 < st.held addr) :
    ∃ f hs', mapFree st.file addr = some f ∧
      Inv ⟨f, update st.held addr (st.held addr - 1)⟩ hs' := by
  unfold mapFree
  by_cases hGlobal : st.file.globalMap = some addr
  · have hCount := (hInv.global addr hGlobal).1
    have hMax := hInv.max addr
    have hWrap : wrap (st.file.globalRefcount - 1) = (st.held addr - 1 : Nat) := by
      rw [wrap_of_inRange] <;> [skip; unfold InRange] <;> omega
    rw [if_pos hGlobal]
    dsimp only
    rw [hWrap]
    by_cases hMany : 1 < st.held addr
    · rw [if_pos (by omega)]
      refine ⟨_, hs, rfl, hInv.setGlobal hGlobal ?_ ?_ ?_ ?_⟩
      · rw [update_self]
      · rw [update_self]
        omega
      · rw [update_self]
        omega
      · exact fun a hNe => update_of_ne hNe _ _
    · have hLast : st.held addr = 1 := by omega
      rw [if_neg (by omega), hLast]
      unfold munmap
      have hMapped := hInv.global_mem hGlobal
      refine ⟨_, hs, ?_, hInv.dropGlobal hGlobal⟩
      dsimp only
      rw [if_pos hMapped]
      rfl
  · rw [if_neg hGlobal]
    exact hInv.commonMapFree hHeld hGlobal

---
-- Another Size
---

omit hInv in
theorem forgetGlobal_of_none (hGlobal : f.globalMap = none) : forgetGlobal f = f := by
  unfold forgetGlobal
  rw [hGlobal]

/- The global map, as a record of `dead_map` -/
omit hInv in
theorem forgetGlobal_of_some (hGlobal : f.globalMap = some g) :
    forgetGlobal f = { f with
      deadMap := f.deadMap ++ [f.records]
      globalMap := none
      globalRefcount := 0
      record := update f.record f.records (some ⟨g, 0, f.length, f.refcount⟩)
      records := f.records + 1 } := by
  unfold forgetGlobal
  rw [hGlobal]
  rfl

theorem Inv.forgetGlobal
    (hCount : st.file.globalMap ≠ none →
      st.file.refcount = st.file.globalRefcount) :
    Inv ⟨forgetGlobal st.file, st.held⟩ hs ∧ (forgetGlobal st.file).globalMap = none := by
  cases hGlobal : st.file.globalMap with
  | none =>
    rw [forgetGlobal_of_none hGlobal]
    exact ⟨hInv, hGlobal⟩
  | some g =>
    have hRefs := (hCount (by rw [hGlobal]; simp)).trans (hInv.global g hGlobal).1
    have hPos := (hInv.global g hGlobal).2
    refine ⟨?_, by rw [forgetGlobal_of_some hGlobal]⟩
    generalize hf : FileMap.forgetGlobal st.file = f
    rw [forgetGlobal_of_some hGlobal] at hf
    have hHere : content f st.file.records = ⟨g, 0, st.file.length, st.file.refcount⟩ := by
      rw [← hf]
      unfold content
      dsimp only
      rw [update_self, getD_some]
    have hOther : ∀ r ∈ hs ++ st.file.deadMap, content f r = content st.file r := by
      intro r hr
      rw [← hf]
      unfold content
      dsimp only
      rw [update_of_ne (hInv.below r hr).ne]
    have hOld : ∀ r ∈ hs, content f r = content st.file r :=
      fun r hr => hOther r (mem_append_left _ hr)
    have hDead : hs ++ f.deadMap = (hs ++ st.file.deadMap) ++ [st.file.records] := by
      rw [← hf, append_assoc]
    have hKeys : hs.map (keyOf f) = hs.map (keyOf st.file) := by
      apply map_congr_left
      intro r hr
      unfold keyOf
      rw [hOld r hr]
    have hRegions : (hs ++ st.file.deadMap).map (regionOf f) =
        (hs ++ st.file.deadMap).map (regionOf st.file) := by
      apply map_congr_left
      intro r hr
      unfold regionOf
      rw [hOther r hr]
    have hSplit : ∀ r ∈ hs ++ f.deadMap, r ∈ hs ++ st.file.deadMap ∨ r = st.file.records := by
      intro r hr
      rw [hDead] at hr
      exact (mem_append.mp hr).imp_right mem_singleton.mp
    constructor
    case map =>
      have hMap : f.map = st.file.map := by rw [← hf]
      dsimp only
      rw [hMap, hInv.map]
      apply map_congr_left
      intro r hr
      unfold keyOf
      rw [hOld r hr]
    case rmap =>
      have hMap : f.rmap = st.file.rmap := by rw [← hf]
      dsimp only
      rw [hMap, hInv.rmap]
      apply map_congr_left
      intro r hr
      rw [hOld r hr]
    case keys =>
      dsimp only
      rw [hKeys]
      exact hInv.keys
    case live =>
      intro r hr
      dsimp only at hr ⊢
      rcases hSplit r hr with hr | rfl
      · rw [hOther r hr, ← hInv.live r hr, ← hf]
        exact update_of_ne (hInv.below r hr).ne _ _
      · rw [hHere, ← hf]
        exact update_self _ _ _
    case below =>
      intro r hr
      dsimp only at hr ⊢
      rw [← hf]
      rcases hSplit r hr with hr | rfl
      · exact Nat.lt_succ_of_lt (hInv.below r hr)
      · exact Nat.lt_succ_self _
    case ids =>
      dsimp only
      rw [hDead]
      refine nodup_append.mpr ⟨hInv.ids, nodup_singleton _, ?_⟩
      intro a ha b hb
      rw [mem_singleton.mp hb]
      exact (hInv.below a ha).ne
    case mapped =>
      have hRegion : regionOf f st.file.records = (g, st.file.length) := by
        unfold regionOf
        rw [hHere]
      have hMapped := hInv.mapped
      rw [globalRegion, hGlobal] at hMapped
      dsimp only
      rw [hDead, map_append, hRegions, map_singleton, hRegion, ← hf]
      exact hMapped.trans perm_append_comm
    case once =>
      rw [← hf]
      exact hInv.once
    case count =>
      intro r hr
      dsimp only at hr ⊢
      rcases hSplit r hr with hr | rfl
      · rw [hOther r hr]
        exact hInv.count r hr
      · rw [hHere]
        exact ⟨hRefs, hPos⟩
    case global =>
      rw [← hf]
      exact fun g h => nomatch h
    case noGlobal =>
      rw [← hf]
      exact fun _ => rfl
    case held =>
      rw [← hf]
      exact hInv.held
    case max => exact hInv.max
    case size =>
      rw [← hf]
      exact hInv.size

/- The length does not matter without a global map. -/
theorem Inv.setLength {size : Nat} (hGlobal : st.file.globalMap = none)
    (hSize : size < 18446744073709551616) : Inv ⟨{ st.file with length := size }, st.held⟩ hs where
  map := hInv.map
  rmap := hInv.rmap
  keys := hInv.keys
  live := hInv.live
  below := hInv.below
  ids := hInv.ids
  mapped := by
    have hMapped := hInv.mapped
    have hOld : globalRegion st.file = [] := by
      rw [globalRegion, hGlobal]
    have hNew : globalRegion { st.file with length := size } = [] := by
      rw [globalRegion, hGlobal]
    rw [hOld] at hMapped
    rw [hNew]
    exact hMapped
  once := hInv.once
  count := hInv.count
  global := hInv.global
  noGlobal := hInv.noGlobal
  held := hInv.held
  max := hInv.max
  size := hSize

omit hInv in
theorem outOfLimit_nil {entries : List ((Nat × Nat) × Nat)} (hLive : ∀ e ∈ entries,
    f.record e.2 = some (content f e.2) ∧ keyOf f e.2 = e.1)
    (hLimit : ∀ e ∈ entries, e.1.1 + e.1.2 ≤ length) : outOfLimit f length entries = some [] := by
  induction entries with
  | nil => rfl
  | cons e entries ih =>
    rcases hLive e (by simp) with ⟨hRecord, hKey⟩
    have hEnd := hLimit e (by simp)
    rw [← hKey] at hEnd
    unfold outOfLimit
    rw [hRecord]
    dsimp only [bind_eq_bind, bind_some]
    rw [ih (fun e he => hLive e (by simp [he])) fun e he => hLimit e (by simp [he])]
    dsimp only [bind_some]
    unfold keyOf at hEnd
    dsimp only at hEnd
    rw [if_neg (by omega)]

/- The size of the file is what `fstat` says. -/
theorem refresh_spec {size : Nat} (hSize : size < 18446744073709551616)
    (hSound : st.file.length ≠ size → (st.file.globalMap ≠ none →
      st.file.refcount = st.file.globalRefcount) ∧ ∀ e ∈ st.file.map,
      e.1.1 + e.1.2 ≤ size) : ∃ f, refresh st.file size = some f ∧ Inv ⟨f, st.held⟩ hs := by
  unfold refresh
  by_cases hSame : st.file.length = size
  · have hTest : (st.file.length != size) = false := by
      rw [hSame]
      simp
    rw [hTest, ← hSame]
    exact ⟨st.file, rfl, hInv⟩
  · have hTest : (st.file.length != size) = true := by
      simpa using hSame
    rcases hSound hSame with ⟨hCount, hLimit⟩
    rcases hInv.forgetGlobal hCount with ⟨hForgot, hNone⟩
    have hMap : (FileMap.forgetGlobal st.file).map = st.file.map := by
      unfold FileMap.forgetGlobal
      split <;> rfl
    have hDead : outOfLimit (FileMap.forgetGlobal st.file) size
        (FileMap.forgetGlobal st.file).map = some [] := by
      apply outOfLimit_nil
      · intro e he
        rw [hForgot.map] at he
        rcases mem_map.mp he with ⟨r, hr, rfl⟩
        exact ⟨hForgot.live r (mem_append_left _ hr), rfl⟩
      · rw [hMap]
        exact hLimit
    rw [hTest, cond_true]
    unfold flush
    dsimp only
    rw [hDead]
    refine ⟨{ FileMap.forgetGlobal st.file with length := size }, ?_, hForgot.setLength hNone hSize⟩
    dsimp only [bind_eq_bind, bind_some, foldlM_nil, Option.pure_def]
    rw [append_nil]

---
-- Closing
---

/- Records are released one after the other. -/
omit hInv in
theorem foldlM_mapClose {rs : List Nat} {rest : List (Nat × Nat)}
    (hLive : ∀ r ∈ rs, f.record r = some (content f r)) (hNodup : rs.Nodup)
    (hMapped : f.mapped.Perm (rs.map (regionOf f) ++ rest)) :
    ∃ record mapped, rs.foldlM mapClose f =
        some { f with record := record, mapped := mapped } ∧
      mapped.Perm rest ∧ ∀ q ∉ rs, record q = f.record q := by
  induction rs generalizing f with
  | nil => exact ⟨f.record, f.mapped, rfl, hMapped, fun _ _ => rfl⟩
  | cons r rs ih =>
    rcases nodup_cons.mp hNodup with ⟨hr, hRest⟩
    rw [map_cons, cons_append] at hMapped
    have hRegion : regionOf f r ∈ f.mapped := hMapped.mem_iff.mpr mem_cons_self
    have hClose := mapClose_eq (hLive r (by simp)) hRegion
    have hErase := hMapped.erase (regionOf f r)
    rw [erase_cons_head] at hErase
    generalize hf : ({ f with
      record := update f.record r none
      mapped := f.mapped.erase (regionOf f r) } : File) = f₁
    have hSame : ∀ q ∈ rs, content f₁ q = content f q := by
      intro q hq
      have hNe : q ≠ r := fun h => hr (h ▸ hq)
      rw [← hf]
      unfold content
      dsimp only
      rw [update_of_ne hNe]
    have hRegions : rs.map (regionOf f₁) = rs.map (regionOf f) := by
      apply map_congr_left
      intro q hq
      unfold regionOf
      rw [hSame q hq]
    have hLive₁ : ∀ q ∈ rs, f₁.record q = some (content f₁ q) := by
      intro q hq
      have hNe : q ≠ r := fun h => hr (h ▸ hq)
      rw [hSame q hq, ← hLive q (by simp [hq]), ← hf]
      exact update_of_ne hNe _ _
    have hMapped₁ : f₁.mapped.Perm (rs.map (regionOf f₁) ++ rest) := by
      rw [hRegions, ← hf]
      exact hErase
    rcases ih hLive₁ hRest hMapped₁ with ⟨record, mapped, hFold, hPerm, hOther⟩
    refine ⟨record, mapped, ?_, hPerm, ?_⟩
    · rw [foldlM_cons, hClose]
      dsimp only [bind_eq_bind, bind_some]
      unfold regionOf at hf
      rw [hf, hFold, ← hf]
    · intro q hq
      have hNe : q ≠ r := fun h => hq (by simp [h])
      rw [hOther q fun h => hq (by simp [h]), ← hf]
      exact update_of_ne hNe _ _

/- Every region that is left is unmapped. -/
theorem close_spec : ∃ f, close st.file = some f ∧ f.mapped = [] := by
  have hMap : st.file.map.map Prod.snd = hs := by
    rw [hInv.map, List.map_map]
    exact List.map_id hs
  rcases nodup_append.mp hInv.ids with ⟨hFirst, hSecond, hApart⟩
  have hMapped := hInv.mapped.trans perm_append_comm
  rw [map_append, append_assoc] at hMapped
  generalize hf : ({ st.file with rmap := [], map := [] } : File) = f
  have hContent : content f = content st.file := by
    rw [← hf]
    rfl
  have hMapped₀ : f.mapped.Perm (hs.map (regionOf f) ++
      (st.file.deadMap.map (regionOf f) ++ globalRegion st.file)) := by
    rw [← hf]
    exact hMapped
  have hLive₀ : ∀ r ∈ hs, f.record r = some (content f r) := by
    intro r hr
    rw [hContent, ← hInv.live r (mem_append_left _ hr), ← hf]
  rcases foldlM_mapClose hLive₀ hFirst hMapped₀ with ⟨record, mapped, hFold, hPerm, hSame⟩
  generalize hf₁ : ({ f with
    record := record, mapped := mapped } : File) = f₁
  have hRecord : ∀ r ∈ st.file.deadMap, f₁.record r = st.file.record r := by
    intro r hr
    have hNot : r ∉ hs := fun h => hApart r h r hr rfl
    rw [← hf₁]
    dsimp only
    rw [hSame r hNot, ← hf]
  have hContent₁ : ∀ r ∈ st.file.deadMap, content f₁ r = content st.file r := by
    intro r hr
    unfold content
    rw [hRecord r hr]
  have hLive₁ : ∀ r ∈ st.file.deadMap, f₁.record r = some (content f₁ r) := by
    intro r hr
    rw [hContent₁ r hr, hRecord r hr]
    exact hInv.live r (mem_append_right _ hr)
  have hMapped₁ : f₁.mapped.Perm (st.file.deadMap.map (regionOf f₁) ++ globalRegion st.file) := by
    have hRegions : st.file.deadMap.map (regionOf f₁) = st.file.deadMap.map (regionOf f) := by
      apply map_congr_left
      intro r hr
      unfold regionOf
      rw [hContent₁ r hr, hContent]
    rw [hRegions, ← hf₁]
    exact hPerm
  rcases foldlM_mapClose hLive₁ hSecond hMapped₁ with ⟨record₂, mapped₂, hFold₂, hPerm₂, -⟩
  have hDead : f.deadMap = st.file.deadMap := by
    rw [← hf]
  have hGlobalMap : f₁.globalMap = st.file.globalMap := by
    rw [← hf₁, ← hf]
  have hLength : f₁.length = st.file.length := by
    rw [← hf₁, ← hf]
  unfold close
  dsimp only
  rw [hMap, hf, hFold]
  dsimp only [bind_eq_bind, bind_some]
  rw [hf₁, hDead, hFold₂]
  dsimp only [bind_some]
  unfold globalRegion at hPerm₂
  cases hGlobal : st.file.globalMap with
  | none =>
    rw [hGlobal] at hPerm₂
    rw [hGlobalMap, hGlobal]
    exact ⟨_, rfl, hPerm₂.eq_nil⟩
  | some g =>
    rw [hGlobal] at hPerm₂
    rw [hGlobalMap, hGlobal, hLength]
    have hIn : (g, st.file.length) ∈ mapped₂ := hPerm₂.mem_iff.mpr (mem_singleton_self _)
    have hErase := hPerm₂.erase (g, st.file.length)
    rw [erase_cons_head] at hErase
    unfold munmap
    dsimp only
    rw [if_pos hIn]
    exact ⟨_, rfl, hErase.eq_nil⟩

end Efl.Eina.FileMap
