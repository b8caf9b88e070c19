import Efl.Eo.Vtable
import Mathlib.Data.Multiset.AddSub

/-
  Tables of functions that share their chains.

  A chain counts the places of all tables that point to it in
  16 bits, and is written when it counts one.

  Main declarations:
    * `State`, `Op`, `step`
    * `Room`, what keeps the counts below 65536
    * `copyAll_shared`, `funcSet_kept`
    * `tables_isolated`
-/

---
-- Pointers of a Table
---

namespace Efl.Eo.Dich

open List Option

/- The pointers of a table that are not NULL -/
def pointers : Vtable → Multiset Nat
  | [] => 0
  | d :: t => addPointer d (pointers t)

/- The chains that a copy makes a table point to -/
def gained : Vtable → Vtable → Multiset Nat
  | none :: dst, s :: src => addPointer s (gained dst src)
  | some _ :: dst, _ :: src => gained dst src
  | [], _ => 0
  | _ :: _, [] => 0

variable {c : Nat} {rest : Multiset Nat}

theorem mem_addPointer {d : Option Nat} : c ∈ addPointer d rest ↔ d = some c ∨ c ∈ rest := by
  cases d with
  | none => simp [addPointer]
  | some e => simp [addPointer, eq_comm]

theorem addPointer_add (d : Option Nat) (rest more : Multiset Nat) :
    addPointer d rest + more = addPointer d (rest + more) := by
  cases d with
  | none => rfl
  | some e => exact Multiset.cons_add e rest more

theorem addPointer_comm (d e : Option Nat) (rest : Multiset Nat) :
    addPointer d (addPointer e rest) = addPointer e (addPointer d rest) := by
  cases d with
  | none => rfl
  | some x =>
    cases e with
    | none => rfl
    | some y => exact Multiset.cons_swap x y rest

theorem mem_pointers_iff {t : Vtable} : c ∈ pointers t ↔ some c ∈ t := by
  induction t with
  | nil => simp [pointers]
  | cons d t ih => rw [pointers, mem_addPointer, ih, mem_cons, eq_comm]

/- One place of a table, and the other ones -/
theorem pointers_split {t : Vtable} {i : Nat} {x : Option Nat}
    (hGet : t[i]? = some x) :
    ∃ others, pointers t = addPointer x others ∧
      (∀ y, pointers (t.set i y) = addPointer y others) ∧
      ∀ j c, j ≠ i → t[j]? = some (some c) → c ∈ others := by
  induction t generalizing i with
  | nil => simp at hGet
  | cons d t ih =>
    cases i with
    | zero =>
      obtain rfl : d = x := by simpa using hGet
      refine ⟨pointers t, rfl, fun y => rfl, ?_⟩
      intro j c hNe hAt
      cases j with
      | zero => exact absurd rfl hNe
      | succ j =>
        rw [getElem?_cons_succ] at hAt
        exact mem_pointers_iff.mpr (mem_of_getElem? hAt)
    | succ i =>
      rw [getElem?_cons_succ] at hGet
      rcases ih hGet with ⟨others, hAll, hSet, hMem⟩
      refine ⟨addPointer d others, ?_, fun y => ?_, ?_⟩
      · rw [pointers, hAll, addPointer_comm]
      · rw [set_cons_succ, pointers, hSet, addPointer_comm]
      · intro j c hNe hAt
        rw [mem_addPointer]
        cases j with
        | zero => exact Or.inl (by simpa using hAt)
        | succ j =>
          rw [getElem?_cons_succ] at hAt
          exact Or.inr (hMem j c (by omega) hAt)

/-
  The chains of the source are in use besides the place that
  they are copied to.
-/
def Apart (dst src : Vtable) (rest : Multiset Nat) : Prop :=
  ∀ (i c : Nat), src[i]? = some (some c) →
    dst[i]? = some (some c) ∨ c ∈ rest

variable {dst src : Vtable}

theorem Apart.tail {d s : Option Nat}
    (hApart : Apart (d :: dst) (s :: src) rest) (e : Option Nat) :
    Apart dst src (addPointer e rest) := by
  intro i c hAt
  rcases hApart (i + 1) c hAt with hSame | hMem
  · exact Or.inl hSame
  · exact Or.inr (mem_addPointer.mpr (Or.inr hMem))

theorem Apart.mem_of_gained (hApart : Apart dst src rest)
    (hMem : c ∈ gained dst src) : c ∈ rest := by
  induction dst, src using gained.induct with
  | case1 dst s src ih =>
    rw [gained, mem_addPointer] at hMem
    rcases hMem with rfl | hMem
    · rcases hApart 0 c rfl with hSame | hRest
      · exact nomatch some.inj hSame
      · exact hRest
    · exact ih (hApart.tail none) hMem
  | case2 d dst s src ih => exact ih (hApart.tail none) hMem
  | case3 src => exact absurd hMem (Multiset.notMem_zero c)
  | case4 d dst =>
    rw [gained] at hMem
    exact absurd hMem (Multiset.notMem_zero c)

---
-- Copies
---

section

variable {Fn : Type} [DecidableEq Fn]

variable {m : Memory Fn}

/- A copy ends only when the target has all places. -/
theorem length_le_of_copyAll {m' : Memory Fn} {dst' : Vtable}
    (hCopy : copyAll m dst src = some (m', dst')) : src.length ≤ dst.length := by
  induction src generalizing m m' dst dst' with
  | nil => exact Nat.zero_le _
  | cons s src ih =>
    cases dst with
    | nil => cases s <;> exact nomatch hCopy
    | cons d dst =>
      rcases copyAll_cons m d s dst src with ⟨first, hAll, -⟩
      rw [hAll] at hCopy
      rcases bind_eq_some_iff.mp hCopy with ⟨r, -, hRest⟩
      rcases map_eq_some_iff.mp hRest with ⟨⟨m₁, dst₁⟩, hTail, -⟩
      exact Nat.succ_le_succ (ih hTail)

/- What is left to be copied after one place -/
structure Rest (dst src : Vtable) (rest : Multiset Nat) (m : Memory Fn) : Prop where
  shared : Shared m (pointers dst + rest)
  apart : Apart dst src rest
  bound :
    ∀ c, (pointers dst + rest + gained dst src).count c < 65536

/- The place is done, and the others are as they were. -/
theorem Rest.place {d s : Option Nat}
    (hRest : Rest (d :: dst) (s :: src) rest m) :
    ∃ m' d', (match s with
        | none => some (m, d)
        | some c => (copyRef m d c).map fun r =>
          (r.1, some r.2)) = some (m', d') ∧
      Rest dst src (addPointer d' rest) m' ∧ ∀ c ∈ rest, content m' c = content m c := by
  rcases hRest with ⟨hShared, hApart, hBound⟩
  rw [pointers, addPointer_add] at hShared
  simp only [pointers, addPointer_add] at hBound
  have hMove : ∀ e : Option Nat,
      pointers dst + addPointer e rest = addPointer e (pointers dst + rest) := by
    intro e
    rw [Multiset.add_comm, addPointer_add, Multiset.add_comm rest]
  cases s with
  | none =>
    refine ⟨m, d, rfl, ⟨?_, hApart.tail d, ?_⟩, fun _ _ => rfl⟩
    · rw [hMove]
      exact hShared
    · intro c
      have hLess := hBound c
      rw [hMove, addPointer_add]
      cases d with
      | none => exact hLess
      | some e => exact hLess
  | some x =>
    have hSrc : d = some x ∨ x ∈ pointers dst + rest := by
      rcases hApart 0 x rfl with hSame | hMem
      · exact Or.inl (some.inj hSame)
      · exact Or.inr (Multiset.mem_add.mpr (Or.inr hMem))
    have hRoom : d = none → (pointers dst + rest).count x + 1 < 65536 := by
      rintro rfl
      have hLess := hBound x
      simp only [gained, addPointer, Multiset.add_cons,
        Multiset.count_cons_self, Multiset.count_add] at hLess ⊢
      omega
    rcases copyRef_moved hShared hSrc hRoom with ⟨m', d', hRun, hCases, hMoved, -⟩
    refine ⟨m', some d', by simp [hRun], ⟨?_, hApart.tail (some d'), ?_⟩, ?_⟩
    · rw [hMove]
      exact hMoved.shared
    · intro c
      have hLess := hBound c
      rw [hMove, addPointer_add]
      rcases hCases with ⟨rfl, rfl⟩ | rfl | ⟨hSome, hNew⟩
      · simpa [gained, addPointer] using hLess
      · exact hLess
      · rcases isSome_iff_exists.mp hSome with ⟨e, rfl⟩
        have hNone : d' ∉ gained dst src := by
          intro hMem
          have hIn := (hApart.tail none).mem_of_gained hMem
          exact hNew (Multiset.mem_add.mpr (Or.inr hIn))
        have hZero : (pointers dst + rest + gained dst src).count d' = 0 := by
          apply Multiset.count_eq_zero_of_notMem
          intro hIn
          rcases Multiset.mem_add.mp hIn with hIn | hIn
          · exact hNew hIn
          · exact hNone hIn
        by_cases hSame : c = d'
        · subst hSame
          simp only [addPointer, Multiset.count_cons_self, hZero]
          decide
        · simp only [addPointer] at hLess ⊢
          rw [Multiset.count_cons_of_ne hSame]
          exact lt_of_le_of_lt (Multiset.count_le_count_cons ..) hLess
    · intro c hc
      exact hMoved.kept c (Multiset.mem_add.mpr (Or.inr hc))

/- All places are copied, and the others are as they were. -/
theorem copyAll_shared (hRest : Rest dst src rest m)
    (hLength : src.length ≤ dst.length) :
    ∃ m' dst', copyAll m dst src = some (m', dst') ∧
      Shared m' (pointers dst' + rest) ∧ ∀ c ∈ rest, content m' c = content m c := by
  induction src generalizing dst rest m with
  | nil =>
    refine ⟨m, dst, ?_, hRest.shared, fun _ _ => rfl⟩
    cases dst <;> rfl
  | cons s src ih =>
    cases dst with
    | nil => simp at hLength
    | cons d dst =>
      rcases hRest.place with ⟨m₁, d₁, hRun, hRest₁, hKept₁⟩
      rcases ih hRest₁ (by simpa using hLength) with ⟨m', dst', hCopy, hShared', hKept'⟩
      rcases copyAll_cons m d s dst src with ⟨first, hAll, hNone, hSome⟩
      have hFirst : first = some (m₁, d₁) := by
        rw [← hRun]
        cases s with
        | none => exact hNone rfl
        | some c => exact hSome c rfl
      refine ⟨m', d₁ :: dst', ?_, ?_, ?_⟩
      · rw [hAll, hFirst, bind_some, hCopy]
        rfl
      · rw [pointers, addPointer_add, Multiset.add_comm, ← addPointer_add, Multiset.add_comm]
        exact hShared'
      · intro c hc
        have hc' : c ∈ addPointer d₁ rest := mem_addPointer.mpr (Or.inr hc)
        rw [hKept' c hc', hKept₁ c hc]

end

---
-- All Tables
---

section

variable {Fn : Type}

/- All tables that were made; one that was freed is `none`. -/
structure State (Fn : Type) where
  memory : Memory Fn
  tables : List (Option Vtable)

/- Before the first class -/
def State.start [DecidableEq Fn] : State Fn where
  memory := Memory.empty
  tables := []

def State.table (s : State Fn) (t : Nat) : Option Vtable :=
  (s.tables[t]?).join

def State.put (s : State Fn) (t : Nat) (m : Memory Fn) (v : Option Vtable) : State Fn where
  memory := m
  tables := s.tables.set t v

def tablePointers : Option Vtable → Multiset Nat
  | none => 0
  | some t => pointers t

/- The places of all tables that point to a chain -/
def slotsOf : List (Option Vtable) → Multiset Nat
  | [] => 0
  | t :: ts => tablePointers t + slotsOf ts

def State.slots (s : State Fn) : Multiset Nat :=
  slotsOf s.tables

/- `_vtable_func_get`, NULL is `none`. -/
def funcsGet (m : Memory Fn) (vtable : Vtable) (op : Nat) : Option (OpFuncs Fn) :=
  match (vtable[chain1 op]?).join with
  | none => none
  | some c => some (content m c (chainLast op))

variable [DecidableEq Fn]

/- `_vtable_func_clean_all` -/
def cleanAll : Memory Fn → Vtable → Option (Memory Fn)
  | m, [] => some m
  | m, none :: t => cleanAll m t
  | m, some c :: t => do
    let m ← m.unref c
    cleanAll m t

/- What a class of the hierarchy has; `none` is a fault. -/
def hierarchyFuncs (m : Memory Fn) (hierarchy : Vtable) (op : Nat) : Option (OpFuncs Fn) := do
  let c ← (hierarchy[chain1 op]?).join
  let chain ← m.heap.read c
  some (chain.funcs (chainLast op))

/-
  `_vtable_func_set`, with the table of `hierarchy_klass`; it
  is read after the chain is ready to be written.
-/
def State.funcSet (s : State Fn) (t klass : Nat)
    (hierarchy : Option Nat) (op : Nat) (func : Option Fn)
    (allowSameOverride : Bool) : Option (State Fn × Bool) := do
  let v ← s.table t
  match v[chain1 op]? with
  | none => some (s, false)
  | some chain => do
    let (m, c) ← writePrepare s.memory chain
    let s := s.put t m (some (v.set (chain1 op) (some c)))
    match hierarchy, func with
    | some k, none => do
      let h ← s.table k
      let f ← hierarchyFuncs m h op
      let m ← m.write c (chainLast op) f
      some ({ s with memory := m }, true)
    | some _, some func => do
      let m ← m.write c (chainLast op)
        ⟨some func, some klass⟩
      some ({ s with memory := m }, true)
    | none, func =>
      if allowSameOverride = false ∧
          (content m c (chainLast op)).src = some klass then
        some (s, false)
      else do
        let m ← m.write c (chainLast op) ⟨func, some klass⟩
        some ({ s with memory := m }, true)

/-
  The calls of which the creation of a class and the overrides
  of an object are made; tables are numbered.
-/
inductive Op (Fn : Type) where
  | init (size : Nat)
  | copyAll (dst src : Nat)
  | funcSet
      (t klass : Nat) (hierarchy : Option Nat) (op : Nat)
      (func : Option Fn) (allowSameOverride : Bool)
  | cleanAll (t : Nat)

/- One call; `none` is an access to a table that is not there. -/
def step (s : State Fn) : Op Fn → Option (State Fn)
  | .init size =>
    some
      { s with
        tables := s.tables ++ [some (List.replicate size none)] }
  | .copyAll dst src => do
    let d ← s.table dst
    let v ← s.table src
    let (m, d) ← Eo.copyAll s.memory d v
    some (s.put dst m (some d))
  | .funcSet t klass hierarchy op func allowSameOverride => do
    let (s, _) ← s.funcSet t klass hierarchy op func
      allowSameOverride
    some s
  | .cleanAll t => do
    let v ← s.table t
    let m ← Dich.cleanAll s.memory v
    some (s.put t m none)

/- The table that a call is for -/
def Op.target (s : State Fn) : Op Fn → Nat
  | .init _ => s.tables.length
  | .copyAll dst _ => dst
  | .funcSet t _ _ _ _ _ => t
  | .cleanAll t => t

/-
  No chain that the copy shares comes to be at more than 65535
  places.
-/
def Room (s : State Fn) : Op Fn → Prop
  | .copyAll dst src =>
    ∀ d v, s.table dst = some d → s.table src = some v →
      ∀ c, (s.slots + gained d v).count c < 65536
  | _ => True

/- What calls can make of the tables, each under a condition -/
inductive Reachable (P : State Fn → Op Fn → Prop) : State Fn → Prop where
  | start : Reachable P State.start
  | step {s s' : State Fn} {op : Op Fn}
      (hReachable : Reachable P s)
      (hCondition : P s op)
      (hStep : step s op = some s') :
      Reachable P s'

/- Every chain counts the places that point to it. -/
def Exact (s : State Fn) : Prop :=
  ∀ c ∈ s.slots, s.memory.refs c = s.slots.count c

/- The other tables have their functions, from their classes. -/
def Isolated (s s' : State Fn) (t : Nat) : Prop :=
  ∀ u, u ≠ t → ∀ v, s.table u = some v →
    s'.table u = some v ∧
      ∀ op, funcsGet s'.memory v op = funcsGet s.memory v op

end

---
-- Steps
---

variable {v : Vtable}

theorem mem_slotsOf {ts : List (Option Vtable)} {j : Nat}
    (hAt : ts[j]? = some (some v)) (hc : c ∈ pointers v) : c ∈ slotsOf ts := by
  induction ts generalizing j with
  | nil => simp at hAt
  | cons t ts ih =>
    rw [slotsOf, Multiset.mem_add]
    cases j with
    | zero =>
      obtain rfl : t = some v := by simpa using hAt
      exact Or.inl hc
    | succ j => exact Or.inr (ih (by simpa using hAt))

/- One table, and the other ones -/
theorem slotsOf_split {ts : List (Option Vtable)} {i : Nat}
    {x : Option Vtable} (hGet : ts[i]? = some x) :
    ∃ others, slotsOf ts = tablePointers x + others ∧
      (∀ y, slotsOf (ts.set i y) = tablePointers y + others) ∧
      ∀ (j : Nat) v, j ≠ i → ts[j]? = some (some v) → ∀ c ∈ pointers v, c ∈ others := by
  induction ts generalizing i with
  | nil => simp at hGet
  | cons t ts ih =>
    cases i with
    | zero =>
      obtain rfl : t = x := by simpa using hGet
      refine ⟨slotsOf ts, rfl, fun y => rfl, ?_⟩
      intro j v hNe hAt c hc
      cases j with
      | zero => exact absurd rfl hNe
      | succ j =>
        rw [getElem?_cons_succ] at hAt
        exact mem_slotsOf hAt hc
    | succ i =>
      rw [getElem?_cons_succ] at hGet
      rcases ih hGet with ⟨others, hAll, hSet, hMem⟩
      have hMove : ∀ y, tablePointers t +
          (tablePointers y + others) = tablePointers y + (tablePointers t + others) :=
        fun y => by
          rw [← Multiset.add_assoc, ← Multiset.add_assoc, Multiset.add_comm (tablePointers t)]
      refine ⟨tablePointers t + others, ?_, fun y => ?_, ?_⟩
      · rw [slotsOf, hAll, hMove]
      · rw [set_cons_succ, slotsOf, hSet, hMove]
      · intro j v hNe hAt c hc
        rw [Multiset.mem_add]
        cases j with
        | zero =>
          obtain rfl : t = some v := by simpa using hAt
          exact Or.inl hc
        | succ j =>
          rw [getElem?_cons_succ] at hAt
          exact Or.inr (hMem j v (by omega) hAt c hc)

variable {Fn : Type} {s : State Fn} {t : Nat}

theorem State.getElem?_of_table (hTable : s.table t = some v) : s.tables[t]? = some (some v) := by
  unfold State.table at hTable
  cases hGet : s.tables[t]? with
  | none =>
    rw [hGet] at hTable
    exact nomatch hTable
  | some x =>
    rw [hGet] at hTable
    exact congrArg some hTable

/- The functions of a table are those of its chains. -/
theorem funcsGet_congr {m m' : Memory Fn} {v : Vtable}
    (hKept : ∀ c ∈ pointers v, content m' c = content m c) (op : Nat) :
    funcsGet m' v op = funcsGet m v op := by
  unfold funcsGet
  cases hGet : (v[chain1 op]?).join with
  | none => rfl
  | some c =>
    have hAt : v[chain1 op]? = some (some c) := by
      cases hChain : v[chain1 op]? with
      | none =>
        rw [hChain] at hGet
        exact nomatch hGet
      | some x =>
        rw [hChain] at hGet
        exact congrArg some hGet
    have hMem := mem_pointers_iff.mpr (mem_of_getElem? hAt)
    dsimp only
    rw [hKept c hMem]

variable {s' : State Fn}

/- A table is put, and the other chains are as they were. -/
theorem isolated_put {y : Option Vtable} {others : Multiset Nat}
    (hTables : s'.tables = s.tables.set t y)
    (hOthers : ∀ (j : Nat) v, j ≠ t → s.tables[j]? = some (some v) →
    ∀ c ∈ pointers v, c ∈ others)
    (hKept : ∀ c ∈ others, content s'.memory c = content s.memory c) : Isolated s s' t := by
  intro u hNe v hTable
  have hAt := State.getElem?_of_table hTable
  refine ⟨?_, ?_⟩
  · unfold State.table
    rw [hTables, getElem?_set_ne (Ne.symm hNe), hAt]
    rfl
  · intro op
    refine funcsGet_congr ?_ op
    intro c hc
    exact hKept c (hOthers u v hNe hAt c hc)

/- All chains of a table have one pointer less. -/
theorem cleanAll_shared {m : Memory Fn}
    (hShared : Shared m (pointers v + rest)) :
    ∃ m', cleanAll m v = some m' ∧ Shared m' rest ∧ ∀ c, content m' c = content m c := by
  induction v generalizing m with
  | nil =>
    refine ⟨m, rfl, ?_, fun _ => rfl⟩
    rw [pointers, Multiset.zero_add] at hShared
    exact hShared
  | cons d v ih =>
    cases d with
    | none => exact ih hShared
    | some c =>
      rw [pointers, addPointer_add] at hShared
      rcases Shared.unref hShared with ⟨m₁, hUnref, hShared₁, hContent₁, -⟩
      rcases ih hShared₁ with ⟨m', hRun, hShared', hContent'⟩
      refine ⟨m', ?_, hShared', ?_⟩
      · rw [cleanAll, hUnref]
        exact hRun
      · intro x
        rw [hContent', hContent₁]

variable [DecidableEq Fn]

/- What a call keeps: exact counts, and the other tables -/
structure Kept (s s' : State Fn) (t : Nat) : Prop where
  shared : Shared s'.memory s'.slots
  isolated : Isolated s s' t

section

variable (hShared : Shared s.memory s.slots)

include hShared

omit [DecidableEq Fn] in
/- A new table, with no chain -/
theorem init_kept (size : Nat) :
    Kept s
      { s with
        tables := s.tables ++ [some (List.replicate size none)] } s.tables.length := by
  have hNone : pointers (List.replicate size none) = 0 := by
    induction size with
    | zero => rfl
    | succ n ih =>
      rw [replicate_succ, pointers, ih]
      rfl
  have hSlots : ∀ ts : List (Option Vtable),
      slotsOf (ts ++ [some (List.replicate size none)]) = slotsOf ts := by
    intro ts
    induction ts with
    | nil =>
      change pointers (List.replicate size none) + 0 = 0
      rw [hNone]
      rfl
    | cons t ts ih => rw [cons_append, slotsOf, ih, slotsOf]
  constructor
  · unfold State.slots
    rw [hSlots]
    exact hShared
  · intro u hNe v hTable
    have hAt := State.getElem?_of_table hTable
    have hLess := (List.getElem?_eq_some_iff.mp hAt).1
    refine ⟨?_, fun op => rfl⟩
    unfold State.table
    rw [getElem?_append_left hLess, hAt]
    rfl

theorem copyAll_kept {dst src : Nat} (hRoom : Room s (.copyAll dst src))
    (hStep : step s (.copyAll dst src) = some s') : Kept s s' dst := by
  unfold step at hStep
  dsimp only at hStep
  cases hDst : s.table dst with
  | none =>
    rw [hDst] at hStep
    exact nomatch hStep
  | some d =>
    cases hSrc : s.table src with
    | none =>
      rw [hDst, hSrc] at hStep
      exact nomatch hStep
    | some v =>
      simp only [hDst, hSrc, bind_eq_bind, bind_some] at hStep
      rcases slotsOf_split (State.getElem?_of_table hDst) with ⟨others, hAll, hSet, hOthers⟩
      have hApart : Apart d v others := by
        intro i c hAt
        by_cases hSame : src = dst
        · subst hSame
          rw [hDst] at hSrc
          obtain rfl := some.inj hSrc
          exact Or.inl hAt
        · refine Or.inr (hOthers src v hSame (State.getElem?_of_table hSrc) c ?_)
          exact mem_pointers_iff.mpr (mem_of_getElem? hAt)
      have hRest : Rest d v others s.memory := by
        refine ⟨?_, hApart, ?_⟩
        · unfold State.slots at hShared
          rw [hAll] at hShared
          exact hShared
        · intro c
          have hLess := hRoom d v hDst hSrc c
          unfold State.slots at hLess
          rw [hAll] at hLess
          exact hLess
      cases hCopy : Eo.copyAll s.memory d v with
      | none =>
        rw [hCopy] at hStep
        exact nomatch hStep
      | some r =>
        rcases r with ⟨m, d'⟩
        rw [hCopy, bind_some] at hStep
        obtain rfl := some.inj hStep
        have hLength : v.length ≤ d.length := length_le_of_copyAll hCopy
        rcases copyAll_shared hRest hLength with ⟨m', d'', hRun, hShared', hKept⟩
        rw [hCopy] at hRun
        obtain ⟨rfl, rfl⟩ := Prod.mk.inj (some.inj hRun)
        refine ⟨?_, isolated_put rfl hOthers hKept⟩
        unfold State.slots State.put
        rw [hSet]
        exact hShared'

theorem cleanAll_kept (hStep : step s (.cleanAll t) = some s') : Kept s s' t := by
  unfold step at hStep
  dsimp only at hStep
  cases hTable : s.table t with
  | none =>
    rw [hTable] at hStep
    exact nomatch hStep
  | some v =>
    rcases slotsOf_split (State.getElem?_of_table hTable) with ⟨others, hAll, hSet, hOthers⟩
    have hShared' : Shared s.memory (pointers v + others) := by
      unfold State.slots at hShared
      rw [hAll] at hShared
      exact hShared
    rcases cleanAll_shared hShared' with ⟨m', hRun, hRest, hContent⟩
    simp only [hTable, bind_eq_bind, bind_some, hRun] at hStep
    obtain rfl := some.inj hStep
    refine ⟨?_, isolated_put rfl hOthers fun c _ => hContent c⟩
    unfold State.slots State.put
    rw [hSet]
    exact (Multiset.zero_add others).symm ▸ hRest

end

/- What is written into the chain that was made ready -/
theorem funcSet_cases {klass op : Nat} {hierarchy : Option Nat}
    {func : Option Fn} {allowSameOverride answer : Bool}
    (hSet : s.funcSet t klass hierarchy op func allowSameOverride =
    some (s', answer)) :
    ∃ v, s.table t = some v ∧ (s' = s ∨ ∃ chain m c, v[chain1 op]? =
      some chain ∧ writePrepare s.memory chain = some (m, c) ∧
      (s' = s.put t m (some (v.set (chain1 op) (some c))) ∨ ∃ f m',
      m.write c (chainLast op) f = some m' ∧
      s' = s.put t m' (some (v.set (chain1 op) (some c))))) := by
  unfold State.funcSet at hSet
  cases hTable : s.table t with
  | none =>
    rw [hTable] at hSet
    exact nomatch hSet
  | some v =>
    refine ⟨v, rfl, ?_⟩
    rw [hTable] at hSet
    simp only [bind_eq_bind, bind_some] at hSet
    cases hChain : v[chain1 op]? with
    | none =>
      rw [hChain] at hSet
      exact Or.inl (Prod.mk.inj (some.inj hSet)).1.symm
    | some chain =>
      rw [hChain] at hSet
      dsimp only at hSet
      cases hPrepare : writePrepare s.memory chain with
      | none =>
        rw [hPrepare] at hSet
        exact nomatch hSet
      | some r =>
        rcases r with ⟨m, c⟩
        rw [hPrepare, bind_some] at hSet
        refine Or.inr ⟨chain, m, c, rfl, hPrepare, ?_⟩
        cases hierarchy with
        | none =>
          dsimp only at hSet
          split at hSet
          case isTrue =>
            exact Or.inl (Prod.mk.inj (some.inj hSet)).1.symm
          case isFalse =>
            rcases bind_eq_some_iff.mp hSet with ⟨m', hWrite, hSame⟩
            exact Or.inr ⟨_, m', hWrite, (Prod.mk.inj (some.inj hSame)).1.symm⟩
        | some k =>
          cases func with
          | some func =>
            rcases bind_eq_some_iff.mp hSet with ⟨m', hWrite, hSame⟩
            exact Or.inr ⟨_, m', hWrite, (Prod.mk.inj (some.inj hSame)).1.symm⟩
          | none =>
            rcases bind_eq_some_iff.mp hSet with ⟨h, -, hSet⟩
            rcases bind_eq_some_iff.mp hSet with ⟨f, -, hSet⟩
            rcases bind_eq_some_iff.mp hSet with ⟨m', hWrite, hSame⟩
            exact Or.inr ⟨f, m', hWrite, (Prod.mk.inj (some.inj hSame)).1.symm⟩

theorem funcSet_kept {klass op : Nat} {hierarchy : Option Nat}
    {func : Option Fn} {allowSameOverride answer : Bool}
    (hShared : Shared s.memory s.slots) (hSet : s.funcSet t klass hierarchy op func
      allowSameOverride = some (s', answer)) : Kept s s' t := by
  rcases funcSet_cases hSet with ⟨v, hTable, rfl | ⟨chain, m, c, hChain, hPrepare, hLast⟩⟩
  · exact ⟨hShared, fun u _ w hAt => ⟨hAt, fun _ => rfl⟩⟩
  · rcases slotsOf_split (State.getElem?_of_table hTable) with ⟨others, hAll, hPut, hOthers⟩
    rcases pointers_split hChain with ⟨places, hPlaces, hPlace, -⟩
    have hShared' : Shared s.memory (addPointer chain (places + others)) := by
      unfold State.slots at hShared
      rw [hAll] at hShared
      rw [← addPointer_add, ← hPlaces]
      exact hShared
    rcases writePrepare_moved hShared' with ⟨m₁, c₁, hRun, hOne, hFirst, -⟩
    rw [hPrepare] at hRun
    obtain ⟨rfl, rfl⟩ := Prod.mk.inj (some.inj hRun)
    have hSlots : ∀ m : Memory Fn,
        (s.put t m (some (v.set (chain1 op) (some c)))).slots = c ::ₘ (places + others) := by
      intro m
      unfold State.slots State.put
      rw [hPut, tablePointers, hPlace, addPointer_add]
      rfl
    have hEnd : ∀ m' : Memory Fn,
        Replaced (places + others) s.memory m' c →
        Kept s (s.put t m' (some (v.set (chain1 op) (some c)))) t := by
      intro m' hReplaced
      refine ⟨?_, isolated_put rfl hOthers fun x hx =>
        hReplaced.kept x (Multiset.mem_add.mpr (Or.inr hx))⟩
      rw [hSlots]
      exact hReplaced.shared
    rcases hLast with rfl | ⟨f, m', hWrite, rfl⟩
    · exact hEnd m hFirst.toReplaced
    · rcases hFirst.shared.write f hOne (chainLast op) with ⟨m₂, hRun, -, hSecond, -⟩
      rw [hWrite] at hRun
      obtain rfl := some.inj hRun
      exact hEnd m' (hFirst.trans hSecond).toReplaced

/- One call -/
theorem step_kept {op : Op Fn} (hShared : Shared s.memory s.slots)
    (hRoom : Room s op) (hStep : step s op = some s') : Kept s s' (op.target s) := by
  cases op with
  | init size =>
    obtain rfl := some.inj hStep
    exact init_kept hShared size
  | copyAll dst src => exact copyAll_kept hShared hRoom hStep
  | funcSet t klass hierarchy op func allowSameOverride =>
    rcases bind_eq_some_iff.mp hStep with ⟨⟨s₁, answer⟩, hSet, hSame⟩
    obtain rfl := some.inj hSame
    exact funcSet_kept hShared hSet
  | cleanAll t => exact cleanAll_kept hShared hStep

theorem Reachable.shared (hReachable : Reachable Room s) : Shared s.memory s.slots := by
  induction hReachable with
  | start =>
    refine ⟨fun c hc => ?_, fun c hc => ?_, fun c hc => ?_, fun c => ?_⟩
    · exact absurd hc (Multiset.notMem_zero c)
    · exact absurd hc (Finset.notMem_empty c)
    · exact absurd hc (Multiset.notMem_zero c)
    · exact show 0 < 65536 by decide
  | step hReachable hRoom hStep ih =>
    exact (step_kept ih hRoom hStep).shared

/-
  While no chain comes to be at 65536 places, the chains count
  their places, and a call changes the functions of no table
  but its own.
-/
theorem tables_isolated {s : State Fn} (hReachable : Reachable Room s) :
    Exact s ∧
      ∀ op s', Room s op → step s op = some s' →
        Isolated s s' (op.target s) :=
  ⟨hReachable.shared.count, fun _ _ hRoom hStep =>
    (step_kept hReachable.shared hRoom hStep).isolated⟩

/- The first function of the first class -/
theorem tables_isolated_sample :
    ∃ s s' : State Nat,
      step State.start (.init 1) = some s ∧
      step s (.funcSet 0 0 none 0 (some 7) true) = some s' ∧
      Exact s' := by
  refine ⟨_, _, rfl, rfl, (tables_isolated (.step
    (.step .start ?_ (show step _ (.init 1) = some _ from rfl)) ?_ (show
    step _ (.funcSet 0 0 none 0 (some 7) true) = some _ from rfl))).1⟩
  · trivial
  · trivial

---
-- Counts That Wrap
---

open Function

/- A class with function 7, and `n` tables with its chain -/
def crowd (n : Nat) : State Nat where
  memory :=
    { heap :=
        { live := insert 0 ∅
          node := update
            (fun _ => ⟨fun _ => ⟨none, none⟩, 0⟩) 0
            ⟨update (fun _ => ⟨none, none⟩) 0
              ⟨some 7, some 0⟩, (n + 1) % 65536⟩ }
      next := 1 }
  tables := List.replicate (n + 1) (some [some 0])

theorem crowd_table {n : Nat} (hLe : t ≤ n) : (crowd n).table t = some [some 0] := by
  unfold State.table crowd
  rw [getElem?_replicate, if_pos (by omega)]
  rfl

theorem crowd_live (n : Nat) : 0 ∈ (crowd n).memory.heap.live := Finset.mem_insert_self 0 ∅

theorem crowd_node (n : Nat) :
    (crowd n).memory.heap.node 0 = ⟨update (fun _ =>
      ⟨none, none⟩) 0 ⟨some 7, some 0⟩, (n + 1) % 65536⟩ := by
  unfold crowd
  simp

/- One more table with the chain -/
theorem crowd_succ (n : Nat) :
    ∃ s, step (crowd n) (.init 1) = some s ∧
      step s (.copyAll (n + 1) 0) = some (crowd (n + 1)) := by
  refine ⟨_, rfl, ?_⟩
  have hNew : (State.table
      { crowd n with
        tables := (crowd n).tables ++ [some [none]] } (n + 1)) = some [none] := by
    unfold State.table crowd
    simp
  have hFirst : (State.table
      { crowd n with
        tables := (crowd n).tables ++ [some [none]] } 0) = some [some 0] := by
    unfold State.table crowd
    simp [replicate_succ]
  have hRef : (crowd n).memory.ref 0 = some (crowd (n + 1)).memory := by
    unfold Memory.ref
    rw [Heap.modify_of_mem _ (crowd_live n), crowd_node]
    have hMod : ((n + 1) % 65536 + 1) % 65536 = (n + 1 + 1) % 65536 := by omega
    rw [hMod]
    unfold crowd Heap.set
    simp
  have hCopy : copyAll (crowd n).memory [none] [some 0] =
      some ((crowd (n + 1)).memory, [some 0]) := by
    unfold copyAll copyRef copyAll
    rw [hRef]
    rfl
  unfold step
  dsimp only
  change (State.table
    { crowd n with
      tables := (crowd n).tables ++ [some [none]] } (n + 1)).bind _ = _
  rw [hNew, bind_some]
  change (State.table
    { crowd n with
      tables := (crowd n).tables ++ [some [none]] } 0).bind _ = _
  rw [hFirst, bind_some]
  change (copyAll (crowd n).memory [none] [some 0]).bind _ = _
  rw [hCopy, bind_some]
  unfold State.put
  refine congrArg (fun ts => some (State.mk _ ts)) ?_
  change (List.replicate (n + 1) (some [some 0]) ++ [some [none]]).set
    (n + 1) (some [some 0]) = List.replicate (n + 2) (some [some 0])
  rw [set_append_right _ _ (by simp)]
  simp [replicate_succ']

theorem crowd_reachable (n : Nat) : Reachable (fun _ _ => True) (crowd n) := by
  induction n with
  | zero =>
    have hFirst : step (State.start : State Nat) (.init 1) =
        some ⟨Memory.empty, [some [none]]⟩ := rfl
    refine .step (.step .start trivial hFirst) trivial
      (show step _ (.funcSet 0 0 none 0 (some 7) true) = _ from ?_)
    change some _ = some _
    unfold crowd Memory.empty
    simp [Heap.alloc, Heap.set, State.put, chain1, chainLast]
  | succ n ih =>
    rcases crowd_succ n with ⟨s, hInit, hCopy⟩
    exact .step (.step ih trivial hInit) trivial hCopy

/-
  With 65537 places the chain counts one; a function that is
  set in one of the tables is set in all.
-/
theorem tables_not_isolated :
    ¬ ∀ s : State Nat, Reachable (fun _ _ => True) s →
        Exact s ∧
          ∀ op s', step s op = some s' →
            Isolated s s' (op.target s) := by
  intro hClaim
  have hIsolated := (hClaim _ (crowd_reachable 65536)).2
  have hRefs : ((crowd 65536).memory.heap.node 0).refcount =
      1 := by
    rw [crowd_node]
  have hStep : ∃ s', step (crowd 65536)
        (.funcSet 1 0 none 0 (some 9) true) = some s' ∧
      content s'.memory 0 0 = ⟨some 9, some 0⟩ := by
    have hPrepare : writePrepare (crowd 65536).memory (some 0) =
        some ((crowd 65536).memory, 0) := by
      rw [writePrepare, Heap.read_of_mem (crowd_live _),
        bind_eq_bind, bind_some, if_pos hRefs]
    have hPlace : ([some 0] : Vtable)[chain1 0]? =
        some (some 0) := rfl
    have hWrite : ((crowd 65536).memory.write 0 (chainLast 0)
        ⟨some 9, some 0⟩) = some
          { (crowd 65536).memory with
            heap := (crowd 65536).memory.heap.set 0 ⟨update
                ((crowd 65536).memory.heap.node 0).funcs 0
                ⟨some 9, some 0⟩,
              ((crowd 65536).memory.heap.node 0).refcount⟩ } := by
      unfold Memory.write
      rw [Heap.modify_of_mem _ (crowd_live _)]
      rfl
    unfold step
    dsimp only
    unfold State.funcSet
    simp only [crowd_table (show 1 ≤ 65536 by omega),
      bind_eq_bind, bind_some, hPlace, hPrepare]
    rw [if_neg (by simp)]
    change ∃ s', (((crowd 65536).memory.write 0 (chainLast 0)
      ⟨some 9, some 0⟩).bind _).bind _ = some s' ∧ _
    rw [hWrite, bind_some, bind_some]
    refine ⟨_, rfl, ?_⟩
    simp [content]
  rcases hStep with ⟨s', hStep, hContent⟩
  have hTable := crowd_table (show 0 ≤ 65536 by omega)
  have hSame := ((hIsolated _ _ hStep) 0 (by decide)
    _ hTable).2 0
  have hOld : funcsGet (crowd 65536).memory [some 0] 0 =
      some ⟨some 7, some 0⟩ := by
    change some (((crowd 65536).memory.heap.node 0).funcs 0) = _
    rw [crowd_node]
    rfl
  rw [hOld] at hSame
  have hNew : funcsGet s'.memory [some 0] 0 =
      some ⟨some 9, some 0⟩ := congrArg some hContent
  rw [hNew] at hSame
  exact absurd hSame (by decide)

end Efl.Eo.Dich
