import Efl.Lib.Heap
import Mathlib.Data.Multiset.Count

/-
  Tables of functions.

  A table is cut into chains of 32 functions, which classes
  share until one of them writes.

  Main declarations:
    * `Chain2`, `Memory`, `Vtable`
    * `chainMerge`, `writePrepare`, `copyRef`
    * `writePrepare_moved`
    * `chainMerge_moved`
-/

---
-- Chains
---

namespace Efl.Eo

/- `op_type_funcs`; classes are numbered. -/
structure OpFuncs (Fn : Type) where
  func : Option Fn
  src : Option Nat
  deriving DecidableEq

/- `Dich_Chain2` -/
structure Chain2 (Fn : Type) where
  funcs : Nat → OpFuncs Fn
  refcount : Nat

/- The chains that were allocated; `next` is a free address. -/
structure Memory (Fn : Type) where
  heap : Heap Nat (Chain2 Fn)
  next : Nat

/- `Eo_Vtable`, the list of its `chain2` pointers. -/
abbrev Vtable :=
  List (Option Nat)

/- `DICH_CHAIN_LAST_SIZE` -/
def chainLastSize : Nat :=
  32

variable {Fn : Type} [DecidableEq Fn]

namespace Memory

/- Nothing is allocated. -/
def empty : Memory Fn where
  heap := ⟨∅, fun _ => ⟨fun _ => ⟨none, none⟩, 0⟩⟩
  next := 0

/- An `unsigned short` that is counted up. -/
def ref (m : Memory Fn) (c : Nat) : Option (Memory Fn) := do
  let h ← m.heap.modify c fun n =>
    { n with refcount := (n.refcount + 1) % 65536 }
  some { m with heap := h }

/- `_vtable_chain2_unref` -/
def unref (m : Memory Fn) (c : Nat) : Option (Memory Fn) := do
  let h ← m.heap.modify c fun n =>
    { n with refcount := (n.refcount + 65535) % 65536 }
  if (h.node c).refcount = 0 then do
    let h ← h.free c
    some { m with heap := h }
  else
    some { m with heap := h }

/- `_vtable_chain_alloc` -/
def alloc (m : Memory Fn) : Memory Fn × Nat :=
  ({ heap := m.heap.alloc m.next ⟨fun _ => ⟨none, none⟩, 1⟩
     next := m.next + 1 }, m.next)

/- Write one function of a chain. -/
def write (m : Memory Fn) (c j : Nat) (f : OpFuncs Fn) : Option (Memory Fn) := do
  let h ← m.heap.modify c fun n =>
    { n with funcs := Function.update n.funcs j f }
  some { m with heap := h }

end Memory

/-
  The loop of `_vtable_chain_merge` from function `j` on;
  `prepare` is the call of `_vtable_chain_write_prepare`.
-/
def mergeFrom (prepare : Memory Fn → Nat → Option (Memory Fn × Nat)) (src : Nat) :
    Nat → Nat → Memory Fn → Nat → Option (Memory Fn × Nat)
  | 0, _, m, dst => some (m, dst)
  | fuel + 1, j, m, dst => do
    let s ← m.heap.read src
    let d ← m.heap.read dst
    if (s.funcs j).func.isSome ∧ d.funcs j ≠ s.funcs j then do
      let (m, dst) ← prepare m dst
      let m ← m.write dst j (s.funcs j)
      mergeFrom prepare src fuel (j + 1) m dst
    else
      mergeFrom prepare src fuel (j + 1) m dst

/-
  `_vtable_chain_write_prepare` of a chain that was just
  allocated, where the recursion ends.
-/
def prepareOwned (m : Memory Fn) (dst : Nat) : Option (Memory Fn × Nat) := do
  let d ← m.heap.read dst
  if d.refcount = 1 then some (m, dst) else none

/- `_vtable_chain_write_prepare` -/
def writePrepare (m : Memory Fn) : Option Nat → Option (Memory Fn × Nat)
  | none => some m.alloc
  | some dst => do
    let d ← m.heap.read dst
    if d.refcount = 1 then
      some (m, dst)
    else do
      let (m, copy) := m.alloc
      let (m, copy) ← mergeFrom prepareOwned dst
        chainLastSize 0 m copy
      let m ← m.unref dst
      some (m, copy)

/- `_vtable_chain_merge` -/
def chainMerge (m : Memory Fn) (dst src : Nat) : Option (Memory Fn × Nat) :=
  if dst = src then
    some (m, dst)
  else
    mergeFrom (fun m dst => writePrepare m (some dst)) src
      chainLastSize 0 m dst

/- `_vtable_chain_copy_ref` -/
def copyRef (m : Memory Fn) (dst : Option Nat) (src : Nat) : Option (Memory Fn × Nat) :=
  match dst with
  | some dst => chainMerge m dst src
  | none => do
    let m ← m.ref src
    some (m, src)

/- `_vtable_copy_all`; `none` is also a write behind `dst`. -/
def copyAll : Memory Fn → Vtable → Vtable → Option (Memory Fn × Vtable)
  | m, dst, [] => some (m, dst)
  | _, [], _ :: _ => none
  | m, d :: dst, none :: src => do
    let (m, dst) ← copyAll m dst src
    some (m, d :: dst)
  | m, d :: dst, some c :: src => do
    let (m, d) ← copyRef m d c
    let (m, dst) ← copyAll m dst src
    some (m, some d :: dst)

/- `DICH_CHAIN1`, and `DICH_CHAIN_LAST` -/
def chain1 (op : Nat) : Nat :=
  op >>> 5

def chainLast (op : Nat) : Nat :=
  op &&& 31

/- The function at a place of a chain. -/
def chainFunc (m : Memory Fn) (chain : Option Nat) (j : Nat) : Option Fn :=
  match chain with
  | none => none
  | some c => ((m.heap.node c).funcs j).func

/- The function of `_vtable_func_get`, NULL is `none`. -/
def funcGet (m : Memory Fn) (vtable : Vtable) (op : Nat) : Option Fn :=
  chainFunc m (vtable[chain1 op]?).join (chainLast op)

/-
  `_vtable_func_set` without a `hierarchy_klass`, and with
  `allow_same_override`; with it, the answer is `false` when
  `op` is not in the table.
-/
def funcSet (m : Memory Fn) (vtable : Vtable) (klass op : Nat) (func : Option Fn) :
    Option (Memory Fn × Vtable × Bool) :=
  match vtable[chain1 op]? with
  | none => some (m, vtable, false)
  | some chain => do
    let (m, c) ← writePrepare m chain
    let m ← m.write c (chainLast op) ⟨func, some klass⟩
    some (m, vtable.set (chain1 op) (some c), true)

/- How often a chain is in use, and what it holds. -/
def Memory.refs (m : Memory Fn) (c : Nat) : Nat :=
  (m.heap.node c).refcount

def Memory.func (m : Memory Fn) (c j : Nat) : Option Fn :=
  ((m.heap.node c).funcs j).func

/- The pointers of a place with those of one more table. -/
def addPointer (d : Option Nat) (rest : Multiset Nat) : Multiset Nat :=
  match d with
  | none => rest
  | some c => c ::ₘ rest

end Efl.Eo

---
-- Counted Pointers
---

namespace Efl.Eo.Dich

open Option Function

variable {Fn : Type}

/- The functions of a chain, with their classes -/
def content (m : Memory Fn) (c : Nat) : Nat → OpFuncs Fn :=
  (m.heap.node c).funcs

/- The chains of these pointers are there, and count them. -/
structure Shared (m : Memory Fn) (slots : Multiset Nat) : Prop where
  live : ∀ c ∈ slots, c ∈ m.heap.live
  fresh : ∀ c ∈ m.heap.live, c < m.next
  count : ∀ c ∈ slots, m.refs c = slots.count c
  bound : ∀ c, slots.count c < 65536

/- A pointer has become `d`, and the others have what they had. -/
structure Replaced (rest : Multiset Nat) (m m' : Memory Fn) (d : Nat) : Prop where
  shared : Shared m' (d ::ₘ rest)
  kept : ∀ c ∈ rest, content m' c = content m c

/-
  The pointer `d`, if there was one, has become `d'`, which is
  `d`, a new chain or one with a pointer; chains without any of
  these pointers are as they were.
-/
structure Moved (rest : Multiset Nat) (m m' : Memory Fn) (d : Option Nat)
    (d' : Nat) : Prop extends Replaced rest m m' d' where
  far : ∀ c ∈ m.heap.live, c ∉ rest → d ≠ some c →
    c ∈ m'.heap.live ∧ m'.refs c = m.refs c ∧ content m' c = content m c
  place : d = some d' ∨ d' ∉ m.heap.live ∨ d' ∈ rest

section

variable {m : Memory Fn} {rest : Multiset Nat} {d : Nat}

section

variable (hShared : Shared m (d ::ₘ rest))

include hShared

theorem Shared.live_self : d ∈ m.heap.live := hShared.live d (Multiset.mem_cons_self d rest)

theorem Shared.refs_self : m.refs d = rest.count d + 1 := by
  rw [hShared.count d (Multiset.mem_cons_self d rest), Multiset.count_cons_self]

/- A chain that counts one has no other pointer. -/
theorem Shared.not_mem (hOne : m.refs d = 1) : d ∉ rest := by
  have hRefs := hShared.refs_self
  intro hMem
  have hPos := Multiset.count_pos.mpr hMem
  omega

theorem Shared.refl : Moved rest m m (some d) d :=
  ⟨⟨hShared, fun _ _ => rfl⟩, fun _ hLive _ _ => ⟨hLive, rfl, rfl⟩, Or.inl rfl⟩

end

theorem Moved.trans {m₁ m₂ : Memory Fn} {d : Option Nat}
    {d₁ d₂ : Nat} (hFirst : Moved rest m m₁ d d₁)
    (hSecond : Moved rest m₁ m₂ (some d₁) d₂) : Moved rest m m₂ d d₂ := by
  have hNe : ∀ c ∈ m.heap.live, c ∉ rest → d ≠ some c → some d₁ ≠ some c := by
    rintro c hLive hNot hOther ⟨⟩
    rcases hFirst.place with hSame | hNew | hMem
    · exact hOther hSame
    · exact hNew hLive
    · exact hNot hMem
  refine ⟨⟨hSecond.shared, fun c hc => (hSecond.kept c hc).trans
    (hFirst.kept c hc)⟩, fun c hLive hNot hOther => ?_, ?_⟩
  · rcases hFirst.far c hLive hNot hOther with ⟨hLive₁, hRefs₁, hSame₁⟩
    rcases hSecond.far c hLive₁ hNot (hNe c hLive hNot hOther) with ⟨hLive₂, hRefs₂, hSame₂⟩
    exact ⟨hLive₂, hRefs₂.trans hRefs₁, hSame₂.trans hSame₁⟩
  · rcases hSecond.place with hSame | hNew | hMem
    · obtain rfl := some.inj hSame
      exact hFirst.place
    · by_contra hNone
      rw [not_or, not_or, not_not] at hNone
      exact hNew (hFirst.far d₂ hNone.2.1 hNone.2.2 hNone.1).1
    · exact Or.inr (Or.inr hMem)

theorem refs_unref_less {k : Nat} (hRefs : m.refs d = k + 1)
    (hLess : k < 65536) : ((m.heap.node d).refcount + 65535) % 65536 = k := by
  unfold Memory.refs at hRefs
  rw [hRefs]
  omega

/- One pointer less; the last one frees the chain. -/
theorem Shared.unref (hShared : Shared m (d ::ₘ rest)) :
    ∃ m', m.unref d = some m' ∧ Shared m' rest ∧
      (∀ c, content m' c = content m c) ∧
      ∀ c, c ≠ d → m'.refs c = m.refs c ∧ (c ∈ m.heap.live → c ∈ m'.heap.live) := by
  have hRefs := hShared.refs_self
  have hBound := hShared.bound d
  rw [Multiset.count_cons_self] at hBound
  have hLess := refs_unref_less hRefs (by omega)
  have hNode : ∀ c, c ≠ d → ((m.heap.set d ⟨(m.heap.node d).funcs,
      ((m.heap.node d).refcount + 65535) % 65536⟩).node c).refcount = m.refs c := by
    intro c hc
    rw [Heap.node_set, update_of_ne hc]
    rfl
  have hFuncs : ∀ c, ((m.heap.set d ⟨(m.heap.node d).funcs,
        ((m.heap.node d).refcount + 65535) % 65536⟩).node c).funcs = content m c := by
    intro c
    by_cases hc : c = d
    · subst hc
      rw [Heap.node_set, update_self]
      rfl
    · rw [Heap.node_set, update_of_ne hc]
      rfl
  have hSub : ∀ c ∈ rest, c ∈ d ::ₘ rest := fun c hc =>
    Multiset.mem_cons_of_mem hc
  have hCount : ∀ c ∈ rest, c ≠ d → m.refs c = rest.count c := by
    intro c hc hNe
    rw [hShared.count c (hSub c hc), Multiset.count_cons_of_ne hNe]
  have hBound' : ∀ c, rest.count c < 65536 := fun c =>
    lt_of_le_of_lt (Multiset.count_le_count_cons ..) (hShared.bound c)
  unfold Memory.unref
  rw [Heap.modify_of_mem _ hShared.live_self, Option.bind_eq_bind, Option.bind_some]
  by_cases hLast : rest.count d = 0
  · have hNot : d ∉ rest := Multiset.count_eq_zero.mp hLast
    rw [if_pos (by simp [hLess, hLast]), Heap.free_of_mem (by simp [hShared.live_self])]
    refine ⟨_, rfl, ⟨?_, ?_, ?_, hBound'⟩, hFuncs, fun c hc =>
      ⟨hNode c hc, fun hLive => Finset.mem_erase.mpr ⟨hc, hLive⟩⟩⟩
    · intro c hc
      refine Finset.mem_erase.mpr ⟨?_, hShared.live c (hSub c hc)⟩
      rintro rfl
      exact hNot hc
    · intro c hc
      exact hShared.fresh c (Finset.mem_of_mem_erase hc)
    · intro c hc
      have hNe : c ≠ d := by
        rintro rfl
        exact hNot hc
      exact (hNode c hNe).trans (hCount c hc hNe)
  · rw [if_neg (by simp [hLess, hLast])]
    refine ⟨_, rfl, ⟨?_, hShared.fresh, ?_, hBound'⟩, hFuncs, fun c hc => ⟨hNode c hc, id⟩⟩
    · intro c hc
      exact hShared.live c (hSub c hc)
    · intro c hc
      by_cases hSame : c = d
      · subst hSame
        unfold Memory.refs
        rw [Heap.node_set, update_self]
        exact hLess
      · exact (hNode c hSame).trans (hCount c hc hSame)

/- One pointer more, while the count has room for it -/
theorem Shared.ref (hShared : Shared m rest) (hMem : d ∈ rest)
    (hBound : rest.count d + 1 < 65536) :
    ∃ m', m.ref d = some m' ∧ Moved rest m m' none d ∧ content m' d = content m d := by
  have hLive := hShared.live d hMem
  have hRefs := hShared.count d hMem
  unfold Memory.refs at hRefs
  have hMore : ((m.heap.node d).refcount + 1) % 65536 = rest.count d + 1 := by
    rw [hRefs, Nat.mod_eq_of_lt hBound]
  have hSub : ∀ c ∈ d ::ₘ rest, c ∈ rest := by
    intro c hc
    rcases Multiset.mem_cons.mp hc with rfl | hc
    · exact hMem
    · exact hc
  unfold Memory.ref
  rw [Heap.modify_of_mem _ hLive]
  refine ⟨_, rfl, ⟨⟨⟨?_, hShared.fresh, ?_, ?_⟩, ?_⟩, ?_, Or.inr (Or.inr hMem)⟩, by simp [content]⟩
  · intro c hc
    exact hShared.live c (hSub c hc)
  · intro c hc
    unfold Memory.refs
    by_cases hSame : c = d
    · subst hSame
      simp [hMore]
    · rw [Heap.node_set, update_of_ne hSame, Multiset.count_cons_of_ne hSame]
      exact hShared.count c (hSub c hc)
  · intro c
    by_cases hSame : c = d
    · subst hSame
      rw [Multiset.count_cons_self]
      exact hBound
    · rw [Multiset.count_cons_of_ne hSame]
      exact hShared.bound c
  · intro c hc
    unfold content
    by_cases hSame : c = d
    · subst hSame
      simp
    · simp [hSame]
  · intro c hLive hNot _
    have hNe : c ≠ d := by
      rintro rfl
      exact hNot hMem
    exact ⟨hLive, by simp [Memory.refs, hNe], by simp [content, hNe]⟩

/- A new chain, with one pointer to it -/
theorem Shared.alloc (hShared : Shared m rest) :
    m.alloc.1.refs m.next = 1 ∧ m.next ∉ m.heap.live ∧ Moved rest m m.alloc.1 none m.next := by
  have hFree : m.next ∉ m.heap.live := fun hLive =>
    Nat.lt_irrefl _ (hShared.fresh _ hLive)
  have hNew : ∀ c ∈ m.heap.live, c ≠ m.next := by
    rintro c hLive rfl
    exact hFree hLive
  have hZero : rest.count m.next = 0 :=
    Multiset.count_eq_zero.mpr fun hc => hFree (hShared.live _ hc)
  have hOne : m.alloc.1.refs m.next = 1 := by
    simp [Memory.refs, Memory.alloc]
  have hOld : ∀ c ∈ m.heap.live, m.alloc.1.refs c = m.refs c ∧
      content m.alloc.1 c = content m c := by
    intro c hc
    simp [Memory.refs, content, Memory.alloc, hNew c hc]
  refine ⟨hOne, hFree, ⟨⟨⟨?_, ?_, ?_, ?_⟩, ?_⟩, ?_, Or.inr (Or.inl hFree)⟩⟩
  · intro c hc
    rcases Multiset.mem_cons.mp hc with rfl | hc
    · exact Finset.mem_insert_self ..
    · exact Finset.mem_insert_of_mem (hShared.live c hc)
  · intro c hc
    rcases Finset.mem_insert.mp hc with rfl | hc
    · exact Nat.lt_succ_self _
    · exact Nat.lt_succ_of_lt (hShared.fresh c hc)
  · intro c hc
    rcases Multiset.mem_cons.mp hc with rfl | hc
    · rw [hOne, Multiset.count_cons_self, hZero]
    · have hLive := hShared.live c hc
      rw [Multiset.count_cons_of_ne (hNew c hLive), ← hShared.count c hc, (hOld c hLive).1]
  · intro c
    by_cases hSame : c = m.next
    · subst hSame
      rw [Multiset.count_cons_self, hZero]
      decide
    · rw [Multiset.count_cons_of_ne hSame]
      exact hShared.bound c
  · exact fun c hc => (hOld c (hShared.live c hc)).2
  · exact fun c hc _ _ => ⟨Finset.mem_insert_of_mem hc, hOld c hc⟩

/- A chain that counts one is written. -/
theorem Shared.write (f : OpFuncs Fn) (hShared : Shared m (d ::ₘ rest))
    (hOne : m.refs d = 1) (j : Nat) :
    ∃ m', m.write d j f = some m' ∧ m'.refs d = 1 ∧
      Moved rest m m' (some d) d ∧ content m' d = update (content m d) j f := by
  have hNot := hShared.not_mem hOne
  unfold Memory.write
  rw [Heap.modify_of_mem _ hShared.live_self]
  have hRefs : ∀ c, Memory.refs ⟨m.heap.set d ⟨update (m.heap.node d).funcs j f,
        (m.heap.node d).refcount⟩, m.next⟩ c = m.refs c := by
    intro c
    unfold Memory.refs
    by_cases hc : c = d
    · subst hc
      simp
    · simp [hc]
  refine ⟨_, rfl, (hRefs d).trans hOne, ⟨⟨⟨hShared.live,
    hShared.fresh, ?_, hShared.bound⟩, ?_⟩, ?_, Or.inl rfl⟩, ?_⟩
  · intro c hc
    exact (hRefs c).trans (hShared.count c hc)
  · intro c hc
    have hNe : c ≠ d := by
      rintro rfl
      exact hNot hc
    simp [content, hNe]
  · intro c hLive _ hOther
    have hNe : c ≠ d := by
      rintro rfl
      exact hOther rfl
    exact ⟨hLive, hRefs c, by simp [content, hNe]⟩
  · simp [content]

end

---
-- Chains That Are Written
---

variable [DecidableEq Fn] {rest : Multiset Nat}

variable {m : Memory Fn}

/-
  The loop, with a `prepare` that works on all chains or, if
  `own`, on those that count one; after a write the chain of
  the pointer counts one.
-/
theorem mergeFrom_moved {own : Prop} {src : Nat}
    {prepare : Memory Fn → Nat → Option (Memory Fn × Nat)}
    (hPrepare : ∀ m d, Shared m (d ::ₘ rest) → (own → m.refs d = 1) →
      ∃ m' d', prepare m d = some (m', d') ∧ m'.refs d' = 1 ∧
      Moved rest m m' (some d) d' ∧ ∀ k, k < chainLastSize → m'.func d' k = m.func d k)
    (hSrc : src ∈ rest) (n j : Nat) {d : Nat}
    (hShared : Shared m (d ::ₘ rest)) (hOwn : own → m.refs d = 1) :
    ∃ m' d', mergeFrom prepare src n j m d = some (m', d') ∧
      (own → m'.refs d' = 1) ∧
      (d' = d ∨ m'.refs d' = 1) ∧ Moved rest m m' (some d) d' ∧
      ∀ k, k < chainLastSize → m'.func d' k =
        if j ≤ k ∧ k < j + n then
          (m.func src k).or (m.func d k)
        else
          m.func d k := by
  induction n generalizing j m d with
  | zero =>
    refine ⟨m, d, rfl, hOwn, Or.inl rfl, hShared.refl, ?_⟩
    intro k _
    rw [if_neg (by omega)]
  | succ n ih =>
    have hLive := hShared.live src (Multiset.mem_cons_of_mem hSrc)
    rw [mergeFrom, Heap.read_of_mem hLive, Heap.read_of_mem hShared.live_self]
    simp only [bind_eq_bind, bind_some]
    split
    case isTrue hCopy =>
      rcases hPrepare m d hShared hOwn with ⟨m₁, d₁, hRun, hOne, hFirst, hFunc₁⟩
      rcases hFirst.shared.write ((m.heap.node src).funcs j) hOne j with
        ⟨m₂, hWrite, hOne₂, hSecond, hContent₂⟩
      rcases ih (j + 1) hSecond.shared (fun _ => hOne₂) with
        ⟨m', d', hRest, hOwn', hLast, hThird, hFunc'⟩
      rw [hRun, bind_some, hWrite, bind_some]
      have hMoved := hFirst.trans hSecond
      refine ⟨m', d', hRest, hOwn', Or.inr ?_, hMoved.trans hThird, ?_⟩
      · rcases hLast with rfl | hLast
        · -- nothing was written behind `j`
          have hNot := hSecond.shared.not_mem hOne₂
          rw [hThird.shared.refs_self, Multiset.count_eq_zero_of_notMem hNot]
        · exact hLast
      · intro k hk
        have hSame : m₂.func src k = m.func src k :=
          congrArg (fun g => (g k).func) (hMoved.kept src hSrc)
        have hFunc₂ : m₂.func d₁ k =
            if k = j then m.func src j else m₁.func d₁ k := by
          change (content m₂ d₁ k).func = _
          rw [hContent₂, update_apply]
          split <;> rfl
        rw [hFunc' k hk, hSame, hFunc₂, hFunc₁ k hk]
        by_cases hHere : k = j
        · subst hHere
          rw [if_neg (by omega), if_pos rfl, if_pos (by omega)]
          have hSome : (m.func src k).isSome := hCopy.1
          rw [or_of_isSome hSome]
        · rw [if_neg hHere]
          by_cases hIn : j + 1 ≤ k ∧ k < j + 1 + n
          · rw [if_pos hIn, if_pos (by omega)]
          · rw [if_neg hIn, if_neg (by omega)]
    case isFalse hSkip =>
      rcases ih (j + 1) hShared hOwn with ⟨m', d', hRest, hOwn', hLast, hMoved, hFunc'⟩
      refine ⟨m', d', hRest, hOwn', hLast, hMoved, ?_⟩
      intro k hk
      rw [hFunc' k hk]
      by_cases hHere : k = j
      · subst hHere
        rw [if_neg (by omega), if_pos (by omega)]
        by_cases hSome : (m.func src k).isSome
        · have hEq : (m.heap.node d).funcs k = (m.heap.node src).funcs k := by
            by_contra hNe
            exact hSkip ⟨hSome, hNe⟩
          have hFunc : m.func d k = m.func src k := congrArg OpFuncs.func hEq
          rw [hFunc, or_of_isSome hSome]
        · rw [not_isSome_iff_eq_none.mp hSome, none_or]
      · by_cases hIn : j + 1 ≤ k ∧ k < j + 1 + n
        · rw [if_pos hIn, if_pos (by omega)]
        · rw [if_neg hIn, if_neg (by omega)]

/- Afterwards the chain of the pointer counts one. -/
theorem writePrepare_moved {d : Option Nat}
    (hShared : Shared m (addPointer d rest)) :
    ∃ m' d', writePrepare m d = some (m', d') ∧
      m'.refs d' = 1 ∧ Moved rest m m' d d' ∧
      ∀ k, k < chainLastSize → m'.func d' k = chainFunc m d k := by
  have hNone : ∀ k, m.alloc.1.func m.next k = none := by
    simp [Memory.func, Memory.alloc]
  cases d with
  | none =>
    rcases Shared.alloc hShared with ⟨hOwn, -, hAlloc⟩
    exact ⟨_, _, rfl, hOwn, hAlloc, fun k _ => hNone k⟩
  | some d =>
    have hLive : d ∈ m.heap.live := Shared.live_self hShared
    rw [writePrepare, Heap.read_of_mem hLive, bind_eq_bind, bind_some]
    by_cases hOne : (m.heap.node d).refcount = 1
    · rw [if_pos hOne]
      exact ⟨m, d, rfl, hOne, Shared.refl hShared, fun _ _ => rfl⟩
    rw [if_neg hOne]
    rcases Shared.alloc hShared with ⟨hOwn, hFree, hAlloc⟩
    have hPrepare : ∀ (m : Memory Fn) c,
        Shared m (c ::ₘ addPointer (some d) rest) →
        (True → m.refs c = 1) →
        ∃ m' c', prepareOwned m c = some (m', c') ∧
          m'.refs c' = 1 ∧
          Moved (addPointer (some d) rest) m m' (some c) c' ∧
          ∀ k, k < chainLastSize → m'.func c' k = m.func c k := by
      intro m c hShared hOwn
      refine ⟨m, c, ?_, hOwn trivial, hShared.refl, fun _ _ => rfl⟩
      rw [prepareOwned, Heap.read_of_mem hShared.live_self, bind_eq_bind, bind_some]
      exact if_pos (hOwn trivial)
    have hSelf : d ∈ addPointer (some d) rest := Multiset.mem_cons_self d rest
    rcases mergeFrom_moved hPrepare hSelf chainLastSize 0
      hAlloc.shared (fun _ => hOwn) with ⟨m₁, c, hMerge, hRefs, -, hCopy, hFunc⟩
    have hSwap : Shared m₁ (d ::ₘ c ::ₘ rest) := Multiset.cons_swap d c rest ▸ hCopy.shared
    rcases hSwap.unref with ⟨m₂, hUnref, hShared₂, hContent, hOthers⟩
    have hNot : c ∉ d ::ₘ rest := hCopy.shared.not_mem (hRefs trivial)
    have hNe : c ≠ d := fun hSame =>
      hNot (hSame ▸ Multiset.mem_cons_self d rest)
    have hBoth := hAlloc.trans hCopy
    refine ⟨m₂, c, ?_, ?_, ⟨⟨hShared₂, ?_⟩, ?_, ?_⟩, ?_⟩
    · change (mergeFrom prepareOwned d chainLastSize 0 m.alloc.1 m.next).bind _ = _
      rw [hMerge, bind_some]
      change (m₁.unref d).bind _ = _
      rw [hUnref]
      rfl
    · rw [(hOthers c hNe).1]
      exact hRefs trivial
    · intro x hx
      rw [hContent, hBoth.kept x (Multiset.mem_cons_of_mem hx)]
    · intro x hLive hx hOther
      have hNe' : x ≠ d := fun hSame =>
        hOther (congrArg some hSame.symm)
      rcases hBoth.far x hLive (by simp [addPointer, hNe', hx]) nofun with ⟨hLive₁, hRefs₁, hSame₁⟩
      rcases hOthers x hNe' with ⟨hRefs₂, hLive₂⟩
      exact ⟨hLive₂ hLive₁, hRefs₂.trans hRefs₁, (hContent x).trans hSame₁⟩
    · rcases hBoth.place with hSame | hNew | hMem
      · exact nomatch hSame
      · exact Or.inr (Or.inl hNew)
      · exact absurd hMem hNot
    · intro k hk
      have hSame : m₂.func c k = m₁.func c k := congrArg (fun g => (g k).func) (hContent c)
      have hOld : m.alloc.1.func d k = m.func d k :=
        congrArg (fun g => (g k).func) (hAlloc.kept d hSelf)
      rw [hSame, hFunc k hk, if_pos (by omega), hNone, or_none, hOld]
      rfl

theorem chainMerge_moved {d src : Nat}
    (hShared : Shared m (d ::ₘ rest)) (hSrc : src = d ∨ src ∈ rest) :
    ∃ m' d', chainMerge m d src = some (m', d') ∧
      (d' = d ∨ d' ∉ rest) ∧ Moved rest m m' (some d) d' ∧
      ∀ k, k < chainLastSize → m'.func d' k = (m.func src k).or (m.func d k) := by
  unfold chainMerge
  split
  case isTrue hSame =>
    subst hSame
    refine ⟨m, d, rfl, Or.inl rfl, hShared.refl, fun k _ => ?_⟩
    rw [Option.or_self]
  case isFalse hNe =>
    have hMem : src ∈ rest := hSrc.resolve_left fun hSame => hNe hSame.symm
    rcases mergeFrom_moved
      (fun m c hShared (_ : False → m.refs c = 1) =>
        writePrepare_moved (d := some c) hShared) hMem chainLastSize 0
      hShared False.elim with ⟨m', d', hRun, -, hLast, hRest, hFunc⟩
    refine ⟨m', d', hRun, ?_, hRest, fun k hk => ?_⟩
    · rcases hLast with hSame | hOne
      · exact Or.inl hSame
      · exact Or.inr (hRest.shared.not_mem hOne)
    · rw [hFunc k hk, if_pos (by omega)]

/- One pointer gets the functions of another table. -/
theorem copyRef_moved {d : Option Nat} {src : Nat}
    (hShared : Shared m (addPointer d rest)) (hSrc : d = some src ∨ src ∈ rest)
    (hBound : d = none → rest.count src + 1 < 65536) :
    ∃ m' d', copyRef m d src = some (m', d') ∧
      ((d = none ∧ d' = src) ∨ d = some d' ∨ (d.isSome ∧ d' ∉ rest)) ∧
      Moved rest m m' d d' ∧ ∀ k, k < chainLastSize →
        m'.func d' k = (m.func src k).or (chainFunc m d k) := by
  cases d with
  | none =>
    have hMem : src ∈ rest := hSrc.resolve_left nofun
    rcases Shared.ref hShared hMem (hBound rfl) with ⟨m', hRef, hMoved, hSame⟩
    refine ⟨m', src, ?_, Or.inl ⟨rfl, rfl⟩, hMoved, fun k _ => ?_⟩
    · rw [copyRef, hRef]
      rfl
    · refine Eq.trans ?_ or_none.symm
      exact congrArg (fun g => (g k).func) hSame
  | some d =>
    rcases chainMerge_moved hShared (hSrc.imp_left fun hSame =>
      (some.inj hSame).symm) with
      ⟨m', d', hMerge, hLast, hMoved, hFunc⟩
    refine ⟨m', d', hMerge, Or.inr ?_, hMoved, hFunc⟩
    rcases hLast with rfl | hNew
    · exact Or.inl rfl
    · exact Or.inr ⟨rfl, hNew⟩

end Efl.Eo.Dich

---
-- References
---

namespace Efl.Eo

open Function

variable {Fn : Type}

/-
  `cols i` are the pointers that the tables have at place `i`;
  the chains count them, and no chain is at two places.
-/
structure Counted (m : Memory Fn) (cols : Nat → Multiset Nat) : Prop where
  live : ∀ i, ∀ c ∈ cols i, c ∈ m.heap.live
  fresh : ∀ c ∈ m.heap.live, c < m.next
  count : ∀ i, ∀ c ∈ cols i, m.refs c = (cols i).count c
  apart : ∀ i j c, c ∈ cols i → c ∈ cols j → i = j
  bound : ∀ i c, (cols i).count c < 65536

/- The pointers besides one at place `i`. -/
def Others (cols : Nat → Multiset Nat) (i : Nat) (rest : Multiset Nat) (c : Nat) : Prop :=
  c ∈ rest ∨ ∃ j, j ≠ i ∧ c ∈ cols j

/- The chains of these pointers hold what they held. -/
def Kept (P : Nat → Prop) (m m' : Memory Fn) : Prop :=
  ∀ c, P c → ∀ j, m'.func c j = m.func c j

theorem Kept.refl (P : Nat → Prop) (m : Memory Fn) : Kept P m m := fun _ _ _ => rfl

variable {P : Nat → Prop}

theorem Kept.trans {m m' m'' : Memory Fn} (hFirst : Kept P m m')
    (hSecond : Kept P m' m'') : Kept P m m'' := fun c hc j => (hSecond c hc j).trans (hFirst c hc j)

variable {m m' : Memory Fn} {cols : Nat → Multiset Nat} {i : Nat}

/- The pointers at one place -/
theorem Counted.shared {s : Multiset Nat}
    (hCounted : Counted m (update cols i s)) : Dich.Shared m s := by
  have hHere : update cols i s i = s := update_self ..
  exact ⟨fun c hc => hCounted.live i c (by rwa [hHere]), hCounted.fresh,
    fun c hc => by
      rw [hCounted.count i c (by rwa [hHere]), hHere], fun c => hHere ▸ hCounted.bound i c⟩

/- A pointer is moved at one place. -/
theorem Counted.moved {rest : Multiset Nat} {d : Option Nat} {d' : Nat}
    (hCounted : Counted m (update cols i (addPointer d rest)))
    (hMoved : Dich.Moved rest m m' d d') :
    Counted m' (update cols i (d' ::ₘ rest)) ∧ Kept (Others cols i rest) m m' := by
  have hOld : ∀ j, j ≠ i → ∀ c ∈ cols j, c ∈ update cols i (addPointer d rest) j := by
    intro j hj c hc
    rwa [update_of_ne hj]
  -- The pointers of the other places are not at this one.
  have hApart : ∀ j, j ≠ i → ∀ c ∈ cols j, c ∉ rest ∧ d ≠ some c := by
    intro j hj c hc
    have hNot : c ∉ addPointer d rest := fun hMem =>
      hj (hCounted.apart j i c (hOld j hj c hc) (by rwa [update_self]))
    cases d with
    | none => exact ⟨hNot, nofun⟩
    | some e =>
      refine ⟨fun hMem => hNot (Multiset.mem_cons_of_mem hMem), ?_⟩
      rintro ⟨⟩
      exact hNot (Multiset.mem_cons_self _ _)
  have hFar : ∀ j, j ≠ i → ∀ c ∈ cols j, c ∈ m'.heap.live ∧
      m'.refs c = m.refs c ∧ Dich.content m' c = Dich.content m c :=
    fun j hj c hc => hMoved.far c
      (hCounted.live j c (hOld j hj c hc)) (hApart j hj c hc).1 (hApart j hj c hc).2
  have hNot : ∀ j, j ≠ i → ∀ c ∈ cols j, c ∉ d' ::ₘ rest := by
    intro j hj c hc hMem
    rcases hApart j hj c hc with ⟨hRest, hOther⟩
    rcases Multiset.mem_cons.mp hMem with rfl | hMem
    · rcases hMoved.place with hSame | hNew | hIn
      · exact hOther hSame
      · exact hNew (hCounted.live j c (hOld j hj c hc))
      · exact hRest hIn
    · exact hRest hMem
  refine ⟨⟨fun j c hc => ?_, hMoved.shared.fresh, fun j c hc => ?_,
    fun j k c hj hk => ?_, fun j c => ?_⟩, fun c hc k => ?_⟩
  · by_cases hj : j = i
    · subst hj
      rw [update_self] at hc
      exact hMoved.shared.live c hc
    · rw [update_of_ne hj] at hc
      exact (hFar j hj c hc).1
  · by_cases hj : j = i
    · subst hj
      rw [update_self] at hc ⊢
      exact hMoved.shared.count c hc
    · rw [update_of_ne hj] at hc ⊢
      rw [(hFar j hj c hc).2.1, hCounted.count j c (hOld j hj c hc), update_of_ne hj]
  · by_cases hji : j = i
    · subst hji
      by_contra hNe
      rw [update_self] at hj
      rw [update_of_ne (Ne.symm hNe)] at hk
      exact hNot k (Ne.symm hNe) c hk hj
    · rw [update_of_ne hji] at hj
      by_cases hki : k = i
      · subst hki
        rw [update_self] at hk
        exact absurd hk (hNot j hji c hj)
      · rw [update_of_ne hki] at hk
        exact hCounted.apart j k c (hOld j hji c hj) (hOld k hki c hk)
  · by_cases hj : j = i
    · subst hj
      rw [update_self]
      exact hMoved.shared.bound c
    · have hBound := hCounted.bound j c
      rwa [update_of_ne hj] at hBound ⊢
  · have hSame : Dich.content m' c = Dich.content m c := by
      rcases hc with hc | ⟨j, hj, hc⟩
      · exact hMoved.kept c hc
      · exact (hFar j hj c hc).2.2
    exact congrArg (fun g => (g k).func) hSame

---
-- Tables
---

open List Option

/- The pointers with those of a table from place `off` on. -/
def withTable (base : Nat → Multiset Nat) (off : Nat) (t : Vtable) : Nat → Multiset Nat :=
  fun p =>
    if off ≤ p then addPointer (t[p - off]?).join (base p)
    else base p

theorem withTable_cons (base : Nat → Multiset Nat) (off : Nat)
    (d : Option Nat) (t : Vtable) :
    withTable base off (d :: t) = update
      (withTable base (off + 1) t) off (addPointer d (base off)) := by
  funext p
  unfold withTable
  by_cases hHere : p = off
  · subst hHere
    simp
  · rw [update_of_ne hHere]
    by_cases hLe : off ≤ p
    · have hSub : p - off = p - (off + 1) + 1 := by omega
      rw [if_pos hLe, if_pos (by omega), hSub, getElem?_cons_succ]
    · rw [if_neg hLe, if_neg (by omega)]

theorem withTable_update (base : Nat → Multiset Nat) (off : Nat)
    (s : Multiset Nat) (t : Vtable) :
    withTable (update base off s) (off + 1) t = update (withTable base (off + 1) t) off s := by
  funext p
  unfold withTable
  by_cases hHere : p = off
  · subst hHere
    simp
  · rw [update_of_ne hHere, update_of_ne hHere]

theorem withTable_nil (base : Nat → Multiset Nat) (off : Nat) : withTable base off [] = base := by
  funext p
  simp [withTable, addPointer]

variable {base : Nat → Multiset Nat}

theorem mem_withTable {off p c : Nat} (t : Vtable) (hMem : c ∈ base p) :
    c ∈ withTable base off t p := by
  unfold withTable addPointer
  split
  · split
    · exact hMem
    · exact Multiset.mem_cons_of_mem hMem
  · exact hMem

theorem mem_withTable_of_get {t : Vtable} {n c : Nat} (base : Nat → Multiset Nat) (off : Nat)
    (hGet : (t[n]?).join = some c) : c ∈ withTable base off t (off + n) := by
  unfold withTable addPointer
  rw [if_pos (Nat.le_add_right _ _), Nat.add_sub_cancel_left, hGet]
  exact Multiset.mem_cons_self ..

/- Chains that are kept have their functions. -/
theorem Kept.chainFunc_eq {d : Option Nat} (hKept : Kept P m m')
    (hMem : ∀ c, d = some c → P c) (k : Nat) : chainFunc m' d k = chainFunc m d k := by
  cases d with
  | none => rfl
  | some c => exact hKept c (hMem c rfl) k

theorem Kept.mono {Q : Nat → Prop} (hKept : Kept P m m')
    (hSub : ∀ c, Q c → P c) : Kept Q m m' := fun c hc => hKept c (hSub c hc)

variable [DecidableEq Fn]

/- What is done with one place of the tables. -/
theorem copyAll_cons
    (m : Memory Fn) (d s : Option Nat) (dst src : Vtable) :
    ∃ first : Option (Memory Fn × Option Nat),
      (copyAll m (d :: dst) (s :: src) = first.bind fun r =>
      (copyAll r.1 dst src).map fun r' => (r'.1, r.2 :: r'.2)) ∧
      (s = none → first = some (m, d)) ∧ ∀ c, s = some c →
      first = (copyRef m d c).map fun r => (r.1, some r.2) := by
  cases s with
  | none =>
    refine ⟨some (m, d), ?_, fun _ => rfl, by simp⟩
    rw [copyAll, bind_some]
    cases copyAll m dst src <;> rfl
  | some c =>
    refine ⟨(copyRef m d c).map fun r => (r.1, some r.2), ?_,
      by simp, fun _ h => by rw [some.inj h]⟩
    rw [copyAll]
    cases copyRef m d c with
    | none => rfl
    | some r =>
      simp only [bind_eq_bind, bind_some, map_some]
      cases copyAll r.1 dst src <;> rfl

/-
  All functions of a table are copied, where it has one.
-/
theorem copyAll_spec {off : Nat} {dst src : Vtable} (hCounted : Counted m (withTable base off dst))
    (hSrc : ∀ n c, (src[n]?).join = some c → c ∈ base (off + n))
    (hBound : ∀ n, (base (off + n)).card + 1 < 65536)
    (hLength : src.length ≤ dst.length) :
    ∃ (m' : Memory Fn) (dst' : Vtable),
      copyAll m dst src = some (m', dst') ∧
      dst'.length = dst.length ∧
      Counted m' (withTable base off dst') ∧
      (∀ n k : Nat, k < chainLastSize →
        chainFunc m' (dst'[n]?).join k = (chainFunc m
        (src[n]?).join k).or (chainFunc m (dst[n]?).join k)) ∧
      Kept (fun c => ∃ p, c ∈ base p) m m' := by
  induction src generalizing base off m dst with
  | nil =>
    refine ⟨m, dst, by cases dst <;> rfl, rfl, hCounted, ?_, Kept.refl _ _⟩
    intro n k _
    exact (none_or).symm
  | cons s src ih =>
    cases dst with
    | nil => simp at hLength
    | cons d dst =>
      rw [withTable_cons] at hCounted
      rcases copyAll_cons m d s dst src with ⟨first, hCopy, hNone, hSome⟩
      -- the place `off`
      have hFirst : ∃ m₁ d₁, first = some (m₁, d₁) ∧
          Counted m₁ (update (withTable base (off + 1) dst) off
            (addPointer d₁ (base off))) ∧
          (∀ k, k < chainLastSize → chainFunc m₁ d₁ k =
            (chainFunc m s k).or (chainFunc m d k)) ∧
          Kept (Others (withTable base (off + 1) dst) off (base off)) m m₁ := by
        cases s with
        | none =>
          refine ⟨m, d, hNone rfl, hCounted, ?_, Kept.refl _ _⟩
          intro k _
          exact (none_or).symm
        | some c =>
          have hMem : c ∈ base off := hSrc 0 c rfl
          have hCount := Multiset.count_le_card c (base off)
          have hRoom : (base off).card + 1 < 65536 := hBound 0
          rcases Dich.copyRef_moved hCounted.shared (Or.inr hMem)
            (fun _ => by omega) with ⟨m₁, d₁, hRun, -, hMoved, hFunc⟩
          rcases hCounted.moved hMoved with ⟨hCounted₁, hKept⟩
          refine ⟨m₁, some d₁, ?_, hCounted₁, hFunc, hKept⟩
          rw [hSome c rfl, hRun]
          rfl
      rcases hFirst with ⟨m₁, d₁, hRun, hCounted₁, hFunc₁, hKept₁⟩
      rw [← withTable_update] at hCounted₁
      -- the places behind it
      have hSrc' : ∀ n c, (src[n]?).join = some c →
          c ∈ update base off (addPointer d₁ (base off)) (off + 1 + n) := by
        intro n c hc
        rw [update_of_ne (by omega), Nat.add_right_comm, Nat.add_assoc]
        exact hSrc (n + 1) c hc
      have hBound' : ∀ n, Multiset.card (update base off
            (addPointer d₁ (base off)) (off + 1 + n)) + 1 <
          65536 := by
        intro n
        rw [update_of_ne (by omega), Nat.add_right_comm, Nat.add_assoc]
        exact hBound (n + 1)
      rcases ih hCounted₁ hSrc' hBound' (by simpa using hLength) with
        ⟨m', dst', hRest, hLength', hCounted', hFunc', hKept'⟩
      rw [withTable_update, ← withTable_cons] at hCounted'
      have hMem : ∀ c p, c ∈ base p → c ∈ update base off (addPointer d₁ (base off)) p := by
        intro c p hc
        by_cases hp : p = off
        · subst hp
          rw [update_self]
          unfold addPointer
          split
          · exact hc
          · exact Multiset.mem_cons_of_mem hc
        · rwa [update_of_ne hp]
      have hTail : ∀ c p, p ≠ off →
          c ∈ withTable base (off + 1) dst p →
          Others (withTable base (off + 1) dst) off (base off) c :=
        fun c p hp hc => Or.inr ⟨p, hp, hc⟩
      refine ⟨m', d₁ :: dst', ?_, by simpa using hLength', hCounted', ?_, ?_⟩
      · rw [hCopy, hRun, bind_some, hRest]
        rfl
      · intro n k hk
        cases n with
        | zero =>
          refine Eq.trans ?_ (hFunc₁ k hk)
          refine hKept'.chainFunc_eq ?_ k
          intro c hc
          refine ⟨off, ?_⟩
          obtain rfl : d₁ = some c := hc
          rw [update_self]
          exact Multiset.mem_cons_self ..
        | succ n =>
          have hDst := hKept₁.chainFunc_eq (d := (dst[n]?).join)
            (fun c hc => hTail c (off + 1 + n) (by omega) (mem_withTable_of_get base _ hc)) k
          have hSrcFunc :=
            hKept₁.chainFunc_eq (d := (src[n]?).join) (fun c hc =>
            hTail c (off + 1 + n) (by omega) (mem_withTable dst (by
                rw [Nat.add_right_comm, Nat.add_assoc]
                exact hSrc (n + 1) c hc))) k
          rw [getElem?_cons_succ, getElem?_cons_succ,
            getElem?_cons_succ, hFunc' n k hk, hDst, hSrcFunc]
      · refine Kept.trans ?_ (hKept'.mono ?_)
        · refine hKept₁.mono ?_
          rintro c ⟨p, hp⟩
          by_cases hHere : p = off
          · subst hHere
            exact Or.inl hp
          · exact hTail c p hHere (mem_withTable dst hp)
        · rintro c ⟨p, hp⟩
          exact ⟨p, hMem c p hp⟩

theorem chainLast_lt (op : Nat) : chainLast op < chainLastSize := by
  have hLe := Nat.and_le_right (n := op) (m := 31)
  unfold chainLast chainLastSize
  omega

/- The place of a function tells which one it is. -/
theorem chain_injective {op op' : Nat} (hPlace : chain1 op = chain1 op')
    (hLast : chainLast op = chainLast op') : op = op' := by
  have hMod : ∀ n, chainLast n = n % 32 := fun n =>
    Nat.and_two_pow_sub_one_eq_mod n 5
  have hDiv : ∀ n, chain1 n = n / 32 := fun n =>
    Nat.shiftRight_eq_div_pow n 5
  rw [hMod, hMod] at hLast
  rw [hDiv, hDiv] at hPlace
  omega

/- A table in which one place is set. -/
theorem withTable_set {t : Vtable} (d : Option Nat)
    (hLess : i < t.length) :
    withTable base 0 (t.set i d) = update (withTable base 0 t) i (addPointer d (base i)) := by
  funext p
  unfold withTable
  by_cases hHere : p = i
  · subst hHere
    simp [hLess]
  · rw [update_of_ne hHere]
    simp [getElem?_set_ne (Ne.symm hHere)]

/-
  The function is set, and the others are as they were, in
  this table and in the other ones.
-/
theorem funcSet_spec {t : Vtable} {op : Nat} (klass : Nat)
    (func : Option Fn) (hCounted : Counted m (withTable base 0 t))
    (hLess : chain1 op < t.length) :
    ∃ (m' : Memory Fn) (t' : Vtable),
      funcSet m t klass op func = some (m', t', true) ∧
      t'.length = t.length ∧
      Counted m' (withTable base 0 t') ∧
      (∀ op', funcGet m' t' op' =
        if op' = op then func else funcGet m t op') ∧
      Kept (fun c => ∃ p, c ∈ base p) m m' := by
  have hGet : t[chain1 op]? = some t[chain1 op] := getElem?_eq_getElem hLess
  have hHere : withTable base 0 t = update (withTable base 0 t)
      (chain1 op) (addPointer t[chain1 op] (base (chain1 op))) := by
    rw [← withTable_set t[chain1 op] hLess, set_getElem_self]
  rw [hHere] at hCounted
  rcases Dich.writePrepare_moved hCounted.shared with ⟨m₁, d, hRun, hRefs, hFirst, hFunc₁⟩
  rcases hFirst.shared.write ⟨func, some klass⟩ hRefs
    (chainLast op) with ⟨m₂, hWrite, -, hSecond, hContent⟩
  rcases hCounted.moved (hFirst.trans hSecond) with ⟨hCounted₂, hKept⟩
  refine ⟨m₂, t.set (chain1 op) (some d), ?_, by simp, ?_, ?_, ?_⟩
  · unfold funcSet
    rw [hGet]
    simp only [bind_eq_bind, hRun, bind_some, hWrite]
  · rw [withTable_set _ hLess]
    exact hCounted₂
  · intro op'
    unfold funcGet
    by_cases hPlace : chain1 op' = chain1 op
    · have hNew : (t.set (chain1 op) (some d))[chain1 op']?.join = some d := by
        rw [hPlace, getElem?_set_self hLess]
        rfl
      have hOld : (t[chain1 op']?).join = t[chain1 op] := by
        rw [hPlace, hGet]
        rfl
      rw [hNew, hOld]
      change (Dich.content m₂ d (chainLast op')).func = _
      rw [hContent, update_apply, apply_ite OpFuncs.func]
      change (if _ then func else m₁.func d (chainLast op')) = _
      rw [hFunc₁ _ (chainLast_lt op')]
      by_cases hLast : chainLast op' = chainLast op
      · rw [if_pos hLast, if_pos (chain_injective hPlace hLast)]
      · rw [if_neg hLast, if_neg]
        rintro rfl
        exact hLast rfl
    · rw [getElem?_set_ne (Ne.symm hPlace), if_neg]
      · refine hKept.chainFunc_eq ?_ _
        intro c hc
        have hMem := mem_withTable_of_get base 0 hc
        rw [Nat.zero_add] at hMem
        exact Or.inr ⟨_, hPlace, hMem⟩
      · rintro rfl
        exact hPlace rfl
  · refine hKept.mono ?_
    rintro c ⟨p, hp⟩
    by_cases hPlace : p = chain1 op
    · subst hPlace
      exact Or.inl hp
    · exact Or.inr ⟨p, hPlace, mem_withTable t hp⟩

end Efl.Eo
