import Efl.Eina.Inlist.Model
import Efl.Lib.DList

/-
  The insertions into an inlist link the new item at its
  place.

  Main declarations:
    * `Holds`
    * `append_spec`, `prepend_spec`
    * `appendRelative_spec`, `prependRelative_spec`
-/

---
-- Links
---

namespace Efl.Eina.Inlist

variable {N : Type} [DecidableEq N]

namespace Memory

variable (mem : Memory N) (n m : N) (x : Option N)

@[simp] theorem next_setNext :
    (mem.setNext n x m).next =
      if m = n then x else (mem m).next := by
  unfold setNext
  split <;> rfl

@[simp] theorem prev_setNext : (mem.setNext n x m).prev = (mem m).prev := by
  unfold setNext
  split <;> rfl

@[simp] theorem last_setNext : (mem.setNext n x m).last = (mem m).last := by
  unfold setNext
  split <;> rfl

@[simp] theorem next_setPrev : (mem.setPrev n x m).next = (mem m).next := by
  unfold setPrev
  split <;> rfl

@[simp] theorem prev_setPrev :
    (mem.setPrev n x m).prev =
      if m = n then x else (mem m).prev := by
  unfold setPrev
  split <;> rfl

@[simp] theorem last_setPrev : (mem.setPrev n x m).last = (mem m).last := by
  unfold setPrev
  split <;> rfl

@[simp] theorem next_setLast : (mem.setLast n x m).next = (mem m).next := by
  unfold setLast
  split <;> rfl

@[simp] theorem prev_setLast : (mem.setLast n x m).prev = (mem m).prev := by
  unfold setLast
  split <;> rfl

@[simp] theorem last_setLast :
    (mem.setLast n x m).last =
      if m = n then x else (mem m).last := by
  unfold setLast
  split <;> rfl

variable {mem n m x}

theorem setNext_of_ne (hNe : m ≠ n) : mem.setNext n x m = mem m := if_neg hNe

theorem setPrev_of_ne (hNe : m ≠ n) : mem.setPrev n x m = mem m := if_neg hNe

theorem setLast_of_ne (hNe : m ≠ n) : mem.setLast n x m = mem m := if_neg hNe

end Memory

---
-- Insertions
---

open List Option
variable {N : Type}

/- The items that a list has, from its head to its last. -/
structure Holds (mem : Memory N) (list : Option N) (ns : List N) : Prop where
  linked : DList.Linked (fun n => (mem n).next)
    (fun n => (mem n).prev) ns
  head : list = ns.head?
  last : ∀ h, ns.head? = some h → (mem h).last = ns.getLast?

variable {mem : Memory N} {list : N} {ns : List N}

theorem Holds.cons (hHolds : Holds mem (some list) ns) : ∃ rest, ns = list :: rest := by
  cases ns with
  | nil => exact absurd hHolds.head (by simp)
  | cons n rest => exact ⟨rest, by simpa using hHolds.head.symm⟩

theorem Holds.last_eq (hHolds : Holds mem (some list) ns) :
    (mem list).last = ns.getLast? := hHolds.last list hHolds.head.symm

variable [DecidableEq N]

theorem append_none (mem : Memory N) (fuel : Nat) (item : N) :
    ∃ mem', append mem fuel none item = some (mem', item) ∧ Holds mem' (some item) [item] := by
  refine ⟨_, rfl, ⟨?_, rfl, ?_⟩⟩
  · exact ⟨nodup_singleton _, by simp, by simp, trivial⟩
  · intro h hHead
    obtain rfl : item = h := by simpa using hHead
    simp

variable {item : N}

/- The item gets the last one. -/
theorem append_spec (fuel : Nat) (hHolds : Holds mem (some list) ns)
    (hNew : item ∉ ns) :
    ∃ mem', append mem fuel (some list) item =
        some (mem', list) ∧
      Holds mem' (some list) (ns ++ [item]) := by
  rcases hHolds.cons with ⟨rest, hEq⟩
  have hLast := hHolds.last_eq
  obtain ⟨l, hl⟩ : ∃ l, ns.getLast? = some l := by
    rw [hEq]
    exact ⟨_, getLast?_eq_some_getLast (by simp)⟩
  have hMem : l ∈ ns := mem_of_getLast? hl
  have hApart : l ≠ item := by
    rintro rfl
    exact hNew hMem
  rw [hl] at hLast
  refine ⟨_, by simp [append, hLast]; rfl, ⟨?_, ?_, ?_⟩⟩
  · have hLinked := hHolds.linked
    rw [← append_nil ns] at hLinked
    refine hLinked.insert (by simpa using hNew) ?_ ?_ ?_ ?_
    · simp [hApart.symm]
    · simp [hl]
    · intro m hm
      have hOther : m ≠ item := by
        rintro rfl
        exact hNew (by simpa using hm)
      simp [hl, hOther]
    · intro m hm
      have hOther : m ≠ item := by
        rintro rfl
        exact hNew (by simpa using hm)
      simp [hOther]
  · simp [hEq]
  · intro h hHead
    obtain rfl : list = h := by simpa [hEq] using hHead
    simp

/- The same for a list that may be empty. -/
theorem append_holds {list : Option N} (fuel : Nat)
    (hHolds : Holds mem list ns) (hNew : item ∉ ns) :
    ∃ mem' list', append mem fuel list item =
        some (mem', list') ∧
      Holds mem' (some list') (ns ++ [item]) := by
  cases list with
  | none =>
    have hEmpty := hHolds.head.symm
    rw [head?_eq_none_iff] at hEmpty
    subst hEmpty
    rcases append_none mem fuel item with ⟨mem', hAppend, hDone⟩
    exact ⟨mem', item, hAppend, hDone⟩
  | some list =>
    rcases append_spec fuel hHolds hNew with ⟨mem', hAppend, hDone⟩
    exact ⟨mem', list, hAppend, hDone⟩

/- No other links are written. -/
theorem append_frame {mem' : Memory N} {list : Option N} {list' : N}
    {fuel : Nat} (hHolds : Holds mem list ns) (hNew : item ∉ ns)
    (hAppend : append mem fuel list item = some (mem', list')) {m : N}
    (hOther : m ∉ ns ++ [item]) : mem' m = mem m := by
  have hItem : m ≠ item := fun hEq => hOther (by simp [hEq])
  cases list with
  | none =>
    obtain ⟨rfl, -⟩ := Prod.mk.inj (some.inj hAppend)
    rw [Memory.setLast_of_ne hItem, Memory.setPrev_of_ne hItem, Memory.setNext_of_ne hItem]
  | some list =>
    rcases hHolds.cons with ⟨rest, hEq⟩
    have hList : m ≠ list := by
      rintro rfl
      exact hOther (by simp [hEq])
    obtain ⟨l, hl⟩ : ∃ l, ns.getLast? = some l := by
      rw [hEq]
      exact ⟨_, getLast?_eq_some_getLast (by simp)⟩
    have hLast : m ≠ l := by
      rintro rfl
      exact hOther (mem_append_left _ (mem_of_getLast? hl))
    have hAt := hHolds.last_eq
    rw [hl] at hAt
    unfold append at hAppend
    simp only [Memory.last_setNext, hAt] at hAppend
    obtain ⟨rfl, -⟩ := Prod.mk.inj (some.inj hAppend)
    rw [Memory.setLast_of_ne hList, Memory.setPrev_of_ne hItem,
      Memory.setNext_of_ne hLast, Memory.setNext_of_ne hItem]

/- A node that is not in the list may have any links. -/
theorem Holds.update {list : Option N} {n : N} (node : Node N)
    (hHolds : Holds mem list ns) (hOut : n ∉ ns) : Holds (Function.update mem n node) list ns := by
  have hSame : ∀ m ∈ ns, Function.update mem n node m = mem m := by
    intro m hMem
    apply Function.update_of_ne
    rintro rfl
    exact hOut hMem
  refine ⟨hHolds.linked.congr ?_ ?_, hHolds.head, ?_⟩
  · intro m hMem
    rw [hSame m hMem]
  · intro m hMem
    rw [hSame m hMem]
  · intro h hHead
    rw [hSame h (mem_of_head? hHead)]
    exact hHolds.last h hHead

/- The item gets the head. -/
theorem prepend_spec (hHolds : Holds mem (some list) ns)
    (hNew : item ∉ ns) :
    ∃ mem', prepend mem (some list) item = (mem', item) ∧ Holds mem' (some item) (item :: ns) := by
  rcases hHolds.cons with ⟨rest, hEq⟩
  have hList : item ≠ list := by
    rintro rfl
    exact hNew (by simp [hEq])
  refine ⟨_, rfl, ⟨?_, rfl, ?_⟩⟩
  · have hLinked := hHolds.linked
    rw [← nil_append ns] at hLinked
    refine hLinked.insert hNew ?_ ?_ ?_ ?_
    · simp [hEq]
    · simp [hList]
    · intro m hm
      have hOther : m ≠ item := by
        rintro rfl
        exact hNew hm
      simp [hOther]
    · intro m hm
      have hOther : m ≠ item := by
        rintro rfl
        exact hNew hm
      simp [hEq, hOther]
  · intro h hHead
    obtain rfl : item = h := by simpa using hHead
    simp [hList, hHolds.last_eq, hEq]

/- The same for a list that may be empty. -/
theorem prepend_holds {list : Option N} (hHolds : Holds mem list ns)
    (hNew : item ∉ ns) :
    ∃ mem', prepend mem list item = (mem', item) ∧ Holds mem' (some item) (item :: ns) := by
  cases list with
  | none =>
    have hEmpty := hHolds.head.symm
    rw [head?_eq_none_iff] at hEmpty
    subst hEmpty
    refine ⟨_, rfl, ⟨?_, rfl, ?_⟩⟩
    · exact ⟨nodup_singleton _, by simp, by simp, trivial⟩
    · intro h hHead
      obtain rfl : item = h := by simpa using hHead
      simp
  | some list => exact prepend_spec hHolds hNew

variable {r : N}

/- The item follows another one. -/
theorem appendRelative_spec {as bs : List N} (fuel : Nat)
    (hHolds : Holds mem (some list) (as ++ r :: bs))
    (hNew : item ∉ as ++ r :: bs) :
    ∃ mem', appendRelative mem fuel (some list) item
        (some r) = some (mem', list) ∧
      Holds mem' (some list) (as ++ r :: item :: bs) := by
  have hR : item ≠ r := by
    rintro rfl
    exact hNew (by simp)
  have hNext := hHolds.linked.next_eq
  have hLast := hHolds.last_eq
  have hHead := hHolds.head
  have hLinked := hHolds.linked
  rw [append_cons] at hLinked
  have hOther : ∀ m ∈ as ++ [r] ++ bs, m ≠ item := by
    rintro m hm rfl
    exact hNew (by simpa using hm)
  refine ⟨_, rfl, ?_⟩
  cases bs with
  | nil =>
    refine ⟨?_, ?_, ?_⟩
    · rw [append_cons]
      refine hLinked.insert (by simpa using hNew) ?_ ?_ ?_ ?_
      · simp [hNext, hR]
      · simp [hNext, hR]
      · intro m hm
        simp [hNext, hOther m hm, hR]
      · intro m hm
        simp [hNext, hOther m hm, hR]
    · rw [hHead]
      cases as <;> rfl
    · intro h hFirst
      obtain rfl : list = h := by
        have hSame : (as ++ [r]).head? = some h := by
          rw [← hFirst]
          cases as <;> rfl
        rw [← hHead] at hSame
        exact some.inj hSame
      simp [hNext, hR]
  | cons b bs =>
    refine ⟨?_, ?_, ?_⟩
    · rw [append_cons]
      refine hLinked.insert (by simpa using hNew) ?_ ?_ ?_ ?_
      · simp [hNext, hR]
      · simp [hNext, hR]
      · intro m hm
        simp [hNext, hOther m hm, hR]
      · intro m hm
        simp [hNext, hOther m hm, hR]
    · rw [hHead]
      cases as <;> rfl
    · intro h hFirst
      obtain rfl : list = h := by
        have hSame : (as ++ r :: b :: bs).head? = some h := by
          rw [← hFirst]
          cases as <;> rfl
        rw [← hHead] at hSame
        exact some.inj hSame
      simp [hNext, hR, hLast]

/- The item precedes another one. -/
theorem prependRelative_spec {as bs : List N} (hHolds : Holds mem (some list) (as ++ r :: bs))
    (hNew : item ∉ as ++ r :: bs) :
    ∃ mem' list', prependRelative mem (some list) item
        (some r) = (mem', list') ∧
      Holds mem' (some list') (as ++ item :: r :: bs) := by
  have hR : r ≠ item := by
    rintro rfl
    exact hNew (by simp)
  have hPrev := hHolds.linked.prev_eq
  have hLast := hHolds.last_eq
  have hHead := hHolds.head
  have hLinked := hHolds.linked
  have hOther : ∀ m ∈ as ++ r :: bs, m ≠ item := by
    rintro m hm rfl
    exact hNew hm
  rcases eq_nil_or_concat as with rfl | ⟨cs, c, rfl⟩
  · obtain rfl : list = r := by simpa using hHead
    have hPrev : (mem list).prev = none := by simpa using hPrev
    refine ⟨_, item, by
      simp [prependRelative, hPrev, hR.symm]; rfl,
      ⟨?_, rfl, ?_⟩⟩
    · refine hLinked.insert hNew ?_ ?_ ?_ ?_
      · simp
      · simp [hR.symm]
      · intro m hm
        simp [hOther m hm]
      · intro m hm
        simp [hOther m hm]
    · intro h hFirst
      obtain rfl : item = h := by simpa using hFirst
      simp [hR.symm, hLast]
  · rw [concat_eq_append] at *
    have hPrev : (mem r).prev = some c := by simpa using hPrev
    have hC : c ≠ item := hOther c (by simp)
    refine ⟨_, list, by
      simp [prependRelative, hPrev, hR.symm]; rfl,
      ⟨?_, ?_, ?_⟩⟩
    · refine hLinked.insert hNew ?_ ?_ ?_ ?_
      · simp [hC.symm]
      · simp [hR.symm]
      · intro m hm
        simp [hOther m hm]
      · intro m hm
        simp [hOther m hm]
    · rw [hHead]
      cases cs <;> rfl
    · intro h hFirst
      obtain rfl : list = h := by
        have hSame : (cs ++ [c] ++ r :: bs).head? = some h := by
          rw [← hFirst]
          cases cs <;> rfl
        rw [← hHead] at hSame
        exact some.inj hSame
      simp [hLast]

/- The same for an item with a position. -/
theorem appendRelative_at {i : Nat} (fuel : Nat)
    (hHolds : Holds mem (some list) ns) (hNew : item ∉ ns)
    (hGet : ns[i]? = some r) :
    ∃ mem', appendRelative mem fuel (some list) item
        (some r) = some (mem', list) ∧
      Holds mem' (some list) (ns.take (i + 1) ++ item :: ns.drop (i + 1)) := by
  rw [Lists.split_get hGet] at hHolds hNew
  rcases appendRelative_spec fuel hHolds hNew with ⟨mem', hRun, hDone⟩
  refine ⟨mem', hRun, ?_⟩
  rw [take_add_one, hGet]
  simpa using hDone

theorem prependRelative_at {i : Nat} (hHolds : Holds mem (some list) ns) (hNew : item ∉ ns)
    (hGet : ns[i]? = some r) :
    ∃ mem' list', prependRelative mem (some list) item (some r) =
        (mem', list') ∧ Holds mem' (some list') (ns.take i ++ item :: ns.drop i) := by
  rw [Lists.split_get hGet] at hHolds hNew
  rcases prependRelative_spec hHolds hNew with ⟨mem', list', hRun, hDone⟩
  refine ⟨mem', list', hRun, ?_⟩
  rcases List.getElem?_eq_some_iff.mp hGet with ⟨hi, rfl⟩
  rwa [drop_eq_getElem_cons hi]

end Efl.Eina.Inlist
