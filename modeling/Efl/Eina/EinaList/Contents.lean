import Efl.Eina.EinaList.Model
import Efl.Lib.DList

/-
  What a list in memory holds, and insertions next to a node.

  Main declarations:
    * `Chained`, `Holds`
    * `Chained.insert`
    * `appendRelativeList_spec`
-/

---
-- Fields
---

namespace Efl.Eina.EinaList.Memory

variable {N A D : Type} [DecidableEq N]
variable (m : Memory N A D) (n k : N)

theorem read_setNode {β : Type} {l : Node N A D}
    (field : Node N A D → β) :
    field ((m.setNode n l).node k) =
      if k = n then field l else field (m.node k) := by
  by_cases hSame : k = n
  · subst hSame
    simp [setNode]
  · simp [setNode, hSame]

/- A field that is not written. -/
theorem keep_setNode {β : Type} {l : Node N A D}
    (field : Node N A D → β) (hKeep : field l = field (m.node n)) :
    field ((m.setNode n l).node k) = field (m.node k) := by
  rw [read_setNode m n k field]
  split
  · rename_i hSame
    rw [hKeep, hSame]
  · rfl

@[simp] theorem next_setNext (p : Option N) :
    (m.setNext n p).next k = if k = n then p else m.next k := read_setNode m n k Node.next

@[simp] theorem prev_setNext (p : Option N) :
    (m.setNext n p).prev k = m.prev k := keep_setNode m n k Node.prev rfl

@[simp] theorem data_setNext (p : Option N) :
    (m.setNext n p).data k = m.data k := keep_setNode m n k Node.data rfl

@[simp] theorem owner_setNext (p : Option N) : (m.setNext n p).owner k = m.owner k :=
  keep_setNode m n k Node.accounting rfl

@[simp] theorem accounting_setNext (p : Option N) : (m.setNext n p).accounting = m.accounting := rfl

@[simp] theorem next_setPrev (p : Option N) :
    (m.setPrev n p).next k = m.next k := keep_setNode m n k Node.next rfl

@[simp] theorem prev_setPrev (p : Option N) :
    (m.setPrev n p).prev k = if k = n then p else m.prev k := read_setNode m n k Node.prev

@[simp] theorem data_setPrev (p : Option N) :
    (m.setPrev n p).data k = m.data k := keep_setNode m n k Node.data rfl

@[simp] theorem owner_setPrev (p : Option N) : (m.setPrev n p).owner k = m.owner k :=
  keep_setNode m n k Node.accounting rfl

@[simp] theorem accounting_setPrev (p : Option N) : (m.setPrev n p).accounting = m.accounting := rfl

@[simp] theorem next_setData (d : D) : (m.setData n d).next k = m.next k :=
  keep_setNode m n k Node.next rfl

@[simp] theorem prev_setData (d : D) : (m.setData n d).prev k = m.prev k :=
  keep_setNode m n k Node.prev rfl

@[simp] theorem data_setData (d : D) : (m.setData n d).data k = if k = n then d else m.data k :=
  read_setNode m n k Node.data

@[simp] theorem owner_setData (d : D) : (m.setData n d).owner k = m.owner k :=
  keep_setNode m n k Node.accounting rfl

@[simp] theorem accounting_setData (d : D) : (m.setData n d).accounting = m.accounting := rfl

@[simp] theorem next_setOwner (a : A) : (m.setOwner n a).next k = m.next k :=
  keep_setNode m n k Node.next rfl

@[simp] theorem prev_setOwner (a : A) : (m.setOwner n a).prev k = m.prev k :=
  keep_setNode m n k Node.prev rfl

@[simp] theorem data_setOwner (a : A) : (m.setOwner n a).data k = m.data k :=
  keep_setNode m n k Node.data rfl

@[simp] theorem owner_setOwner (a : A) :
    (m.setOwner n a).owner k = if k = n then a else m.owner k := read_setNode m n k Node.accounting

@[simp] theorem accounting_setOwner (a : A) : (m.setOwner n a).accounting = m.accounting := rfl

omit [DecidableEq N]

variable [DecidableEq A] (a b : A)

@[simp] theorem next_setLast (l : N) : (m.setLast a l).next k = m.next k := rfl

@[simp] theorem prev_setLast (l : N) : (m.setLast a l).prev k = m.prev k := rfl

@[simp] theorem data_setLast (l : N) : (m.setLast a l).data k = m.data k := rfl

@[simp] theorem owner_setLast (l : N) : (m.setLast a l).owner k = m.owner k := rfl

@[simp] theorem next_setCount (c : Nat) : (m.setCount a c).next k = m.next k := rfl

@[simp] theorem prev_setCount (c : Nat) : (m.setCount a c).prev k = m.prev k := rfl

@[simp] theorem data_setCount (c : Nat) : (m.setCount a c).data k = m.data k := rfl

@[simp] theorem owner_setCount (c : Nat) : (m.setCount a c).owner k = m.owner k := rfl

@[simp] theorem accounting_setLast_last (l : N) :
    ((m.setLast a l).accounting b).last =
      if b = a then l else (m.accounting b).last := by
  by_cases hSame : b = a
  · subst hSame
    simp [setLast]
  · simp [setLast, hSame]

@[simp] theorem accounting_setLast_count (l : N) :
    ((m.setLast a l).accounting b).count = (m.accounting b).count := by
  by_cases hSame : b = a
  · subst hSame
    simp [setLast]
  · simp [setLast, hSame]

@[simp] theorem accounting_setCount_count (c : Nat) :
    ((m.setCount a c).accounting b).count =
      if b = a then c else (m.accounting b).count := by
  by_cases hSame : b = a
  · subst hSame
    simp [setCount]
  · simp [setCount, hSame]

@[simp] theorem accounting_setCount_last (c : Nat) :
    ((m.setCount a c).accounting b).last = (m.accounting b).last := by
  by_cases hSame : b = a
  · subst hSame
    simp [setCount]
  · simp [setCount, hSame]

end Efl.Eina.EinaList.Memory

---
-- Lists
---

namespace Efl.Eina.EinaList

section

variable {N A D : Type}

/-
  The nodes are linked in this order and share the accounting
  `a`, which knows the last one and counts them modulo `2 ^ 32`.
-/
structure Chained (m : Memory N A D) (list : Option N) (a : A) (ns : List N) : Prop where
  head : list = ns.head?
  linked : DList.Linked m.next m.prev ns
  owner : ∀ n ∈ ns, m.owner n = a
  last : ∀ n, ns.getLast? = some n → (m.accounting a).last = n
  count : ns ≠ [] →
    (m.accounting a).count = ns.length % uintSize

/- A list that is not too long for its count. -/
structure Holds (m : Memory N A D) (list : Option N) (a : A)
    (ns : List N) : Prop extends Chained m list a ns where
  fits : ns.length < uintSize

variable {m m' : Memory N A D} {list : Option N} {a : A}
variable {as bs ns : List N} {n : N}

theorem Holds.count_eq {l : N} (hHolds : Holds m (some l) a ns) : m.count l = ns.length := by
  have hHead := hHolds.head
  cases ns with
  | nil => exact nomatch hHead
  | cons n ns =>
    obtain rfl := Option.some.inj hHead
    rw [Memory.count, hHolds.owner l (by simp),
      hHolds.count (by simp), Nat.mod_eq_of_lt hHolds.fits]

theorem Holds.last_eq {l x : N} (hHolds : Holds m (some l) a ns)
    (hLast : ns.getLast? = some x) : m.last l = x := by
  have hHead := hHolds.head
  cases ns with
  | nil => exact nomatch hHead
  | cons n ns =>
    obtain rfl := Option.some.inj hHead
    rw [Memory.last, hHolds.owner l (by simp)]
    exact hHolds.last x hLast

variable [DecidableEq N]

/- A new node between two parts of a list. -/
theorem Chained.insert (hChained : Chained m list a (as ++ bs))
    (hSome : as ++ bs ≠ []) (hNew : n ∉ as ++ bs)
    (hNextNew : m'.next n = bs.head?) (hPrevNew : m'.prev n = as.getLast?)
    (hNext : ∀ k ∈ as ++ bs, m'.next k =
      if some k = as.getLast? then some n else m.next k)
    (hPrev : ∀ k ∈ as ++ bs, m'.prev k =
      if some k = bs.head? then some n else m.prev k) (hOwnerNew : m'.owner n = a)
    (hOwner : ∀ k ∈ as ++ bs, m'.owner k = m.owner k)
    (hLast : (m'.accounting a).last =
      if bs = [] then n else (m.accounting a).last)
    (hCount : (m'.accounting a).count =
      ((m.accounting a).count + 1) % uintSize) :
    Chained m' (as ++ n :: bs).head? a (as ++ n :: bs) where
  head := rfl
  linked := hChained.linked.insert hNew hNextNew hPrevNew hNext hPrev
  owner k hMem := by
    by_cases hSame : k = n
    · rw [hSame, hOwnerNew]
    · have hOld : k ∈ as ++ bs := by
        simpa [hSame] using hMem
      rw [hOwner k hOld, hChained.owner k hOld]
  last k hEnd := by
    rw [hLast]
    cases bs with
    | nil => simpa using hEnd
    | cons b bs =>
      rw [if_neg (by simp)]
      apply hChained.last
      rw [← hEnd]
      simp
  count _ := by
    rw [hCount, hChained.count hSome]
    simp [Nat.add_assoc]

end

---
-- Insertions next to a Node
---

open List
variable {N A D : Type} [DecidableEq N] [DecidableEq A]
variable {m : Memory N A D} {list : N} {a : A}
variable {as bs : List N} {n r : N}

section

variable (m list) (k : N)

@[simp] theorem next_updateAccounting : (updateAccounting m list n).next k = m.next k := by
  simp [updateAccounting]

@[simp] theorem prev_updateAccounting : (updateAccounting m list n).prev k = m.prev k := by
  simp [updateAccounting]

@[simp] theorem data_updateAccounting : (updateAccounting m list n).data k = m.data k := by
  simp [updateAccounting]

@[simp] theorem owner_updateAccounting :
    (updateAccounting m list n).owner k =
      if k = n then m.owner list else m.owner k := by
  simp [updateAccounting]

@[simp] theorem last_updateAccounting (a : A) :
    ((updateAccounting m list n).accounting a).last = (m.accounting a).last := by
  simp [updateAccounting]

@[simp] theorem count_updateAccounting (a : A) :
    ((updateAccounting m list n).accounting a).count =
      if a = m.owner list then (m.count list + 1) % uintSize
      else (m.accounting a).count := by
  simp [updateAccounting]

end

/- What an insertion leaves: the new node has the data. -/
structure Inserted (m m' : Memory N A D) (n : N) (data : D) : Prop where
  data_new : m'.data n = data
  data_old : ∀ k, k ≠ n → m'.data k = m.data k

omit [DecidableEq N] [DecidableEq A] in
theorem Chained.owner_head {ns : List N}
    (hChained : Chained m (some list) a ns) : m.owner list = a := by
  apply hChained.owner
  exact mem_of_head? hChained.head.symm

theorem appendRelativeList_spec {alloc : Allocated N A} (data : D)
    (hChained : Chained m (some list) a (as ++ r :: bs))
    (hAlloc : alloc.node = some n) (hNew : n ∉ as ++ r :: bs) :
    ∃ m', appendRelativeList m alloc (some list) data
        (some r) = (m', some list) ∧
      Chained m' (some list) a (as ++ r :: n :: bs) ∧ Inserted m m' n data := by
  have hOwner := hChained.owner_head
  have hNext := hChained.linked.next_eq
  have hApart : r ≠ n := by
    rintro rfl
    exact hNew (by simp)
  have hHead : some list = ((as ++ [r]) ++ n :: bs).head? := by
    rw [hChained.head]
    cases as <;> rfl
  rw [show as ++ r :: n :: bs = (as ++ [r]) ++ n :: bs by simp]
  rw [show as ++ r :: bs = (as ++ [r]) ++ bs by simp] at hChained hNew
  have hOld : ∀ k ∈ (as ++ [r]) ++ bs, k ≠ n := by
    rintro k hMem rfl
    exact hNew hMem
  unfold appendRelativeList
  cases bs with
  | nil =>
    simp only [head?_nil] at hNext
    simp only [hAlloc, Memory.next_setData, Memory.next_setNext,
      if_neg hApart, hNext, next_updateAccounting, Memory.next_setPrev, if_neg hApart.symm, if_true]
    refine ⟨_, rfl, ?_, ?_⟩
    · rw [hHead]
      refine hChained.insert (by simp) hNew ?_ ?_ ?_ ?_ ?_ ?_ ?_ ?_
      · simp [hApart.symm]
      · simp
      · intro k hMem
        simp [hOld k hMem]
      · intro k hMem
        simp [hOld k hMem]
      · simp [hOwner]
      · intro k hMem
        simp [hOld k hMem]
      · simp [hOwner]
      · simp [hOwner, Memory.count]
    · constructor
      · simp
      · intro k hk
        simp [hk]
  | cons b bs =>
    simp only [head?_cons] at hNext
    simp only [hAlloc, Memory.next_setData, Memory.next_setNext,
      if_neg hApart, hNext, next_updateAccounting, Memory.next_setPrev, if_neg hApart.symm, if_true]
    refine ⟨_, rfl, ?_, ?_⟩
    · rw [hHead]
      refine hChained.insert (by simp) hNew ?_ ?_ ?_ ?_ ?_ ?_ ?_ ?_
      · simp [hApart.symm]
      · simp
      · intro k hMem
        simp [hOld k hMem]
      · intro k hMem
        simp [hOld k hMem]
      · simp [hOwner]
      · intro k hMem
        simp [hOld k hMem]
      · simp
      · simp [hOwner, Memory.count]
    · constructor
      · simp
      · intro k hk
        simp [hk]

theorem prependRelativeList_spec {alloc : Allocated N A} (data : D)
    (hChained : Chained m (some list) a (as ++ r :: bs))
    (hAlloc : alloc.node = some n) (hNew : n ∉ as ++ r :: bs) :
    ∃ m' list', prependRelativeList m alloc (some list) data
        (some r) = (m', some list') ∧
      Chained m' (some list') a (as ++ n :: r :: bs) ∧ Inserted m m' n data := by
  have hOwner := hChained.owner_head
  have hPrev := hChained.linked.prev_eq
  have hOld : ∀ k ∈ as ++ r :: bs, k ≠ n := by
    rintro k hMem rfl
    exact hNew hMem
  have hApart := hOld r (by simp)
  unfold prependRelativeList
  rcases eq_nil_or_concat as with rfl | ⟨as, b, rfl⟩
  · simp only [getLast?_nil] at hPrev
    simp only [hAlloc, Memory.prev_setData, Memory.prev_setNext,
      Memory.prev_setPrev, if_neg hApart, hPrev, prev_updateAccounting, if_neg hApart.symm, if_true]
    refine ⟨_, _, rfl, ?_, ?_⟩
    · refine hChained.insert (by simp) hNew ?_ ?_ ?_ ?_ ?_ ?_ ?_ ?_
      · simp
      · simp [hApart.symm]
      · intro k hMem
        simp [hOld k hMem]
      · intro k hMem
        simp [hOld k hMem]
      · simp [hOwner]
      · intro k hMem
        simp [hOld k hMem]
      · simp
      · simp [hOwner, Memory.count]
    · constructor
      · simp
      · intro k hk
        simp [hk]
  · rw [concat_eq_append] at *
    have hHead : some list = ((as ++ [b]) ++ n :: r :: bs).head? := by
      rw [hChained.head]
      cases as <;> rfl
    simp only [getLast?_append, getLast?_singleton, Option.some_or] at hPrev
    simp only [hAlloc, Memory.prev_setData, Memory.prev_setNext,
      Memory.prev_setPrev, if_neg hApart, hPrev, prev_updateAccounting, if_neg hApart.symm, if_true]
    refine ⟨_, _, rfl, ?_, ?_⟩
    · rw [hHead]
      refine hChained.insert (by simp) hNew ?_ ?_ ?_ ?_ ?_ ?_ ?_ ?_
      · have hBefore := hOld b (by simp)
        simp [hBefore.symm]
      · simp [hApart.symm]
      · intro k hMem
        simp [hOld k hMem]
      · intro k hMem
        simp [hOld k hMem]
      · simp [hOwner]
      · intro k hMem
        simp [hOld k hMem]
      · simp
      · simp [hOwner, Memory.count]
    · constructor
      · simp
      · intro k hk
        simp [hk]

/- The first node of a list. -/
theorem append_none_spec (m : Memory N A D) (n : N) (a : A) (data : D) :
    ∃ m', append m ⟨some n, some a⟩ none data = (m', some n) ∧
      Chained m' (some n) a [n] ∧ Inserted m m' n data := by
  refine ⟨_, rfl, ?_, ?_⟩
  · refine ⟨rfl, ⟨by simp, ?_⟩, ?_, ?_, ?_⟩
    · refine ⟨?_, ?_, trivial⟩ <;> simp
    · simp
    · simp
    · simp [uintSize]
  · constructor
    · simp
    · intro k hk
      simp [hk]

/- Without memory the list stays as it is. -/
theorem relative_list_fails {alloc : Allocated N A} (m : Memory N A D)
    (list relative : Option N) (data : D) (hAlloc : alloc.node = none) :
    appendRelativeList m alloc list data relative = (m, list) ∧
      prependRelativeList m alloc list data relative = (m, list) := by
  unfold appendRelativeList prependRelativeList
  cases list <;> cases relative <;> simp [hAlloc, append, prepend]

/- The list of the nodes 0 and 1. -/
def pairMemory (first second : Nat) : Memory Nat Unit Nat where
  node n :=
    if n = 0 then ⟨first, some 1, none, ()⟩
    else ⟨second, none, some 0, ()⟩
  accounting _ := ⟨1, 2⟩

theorem holds_pairMemory (first second : Nat) :
    Holds (pairMemory first second) (some 0) () [0, 1] where
  head := rfl
  linked := ⟨by decide, rfl, rfl, rfl, rfl, trivial⟩
  owner _ _ := rfl
  last n hLast := Option.some.inj hLast
  count _ := rfl
  fits := by decide

end Efl.Eina.EinaList
