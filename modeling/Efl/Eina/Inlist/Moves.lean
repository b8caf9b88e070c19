import Efl.Eina.Inlist.Links

/-
  The calls that take an item out of an inlist, and those that
  move one to an end of it.

  Main declarations:
    * `remove`, `promote`, `demote`
    * `remove_spec`, `promote_spec`, `demote_spec`
-/

---
-- Calls
---

namespace Efl.Eina.Inlist

variable {N : Type} [DecidableEq N]

/- `eina_inlist_remove` -/
def remove (mem : Memory N) (list : Option N) (item : N) : Memory N × Option N :=
  match list with
  | none => (mem, none)
  | some list =>
    if item ≠ list ∧ (mem item).prev = none ∧
        (mem item).next = none then
      (mem, some list)
    else
      let mem := match (mem item).next with
        | some next => mem.setPrev next (mem item).prev
        | none => mem
      let (mem, returnL) := match (mem item).prev with
        | some prev => (mem.setNext prev (mem item).next, some list)
        | none =>
          match (mem item).next with
          | some next => (mem.setLast next (mem list).last, some next)
          | none => (mem, none)
      let mem := if (mem list).last = some item then
          mem.setLast list (mem item).prev
        else
          mem
      ((mem.setNext item none).setPrev item none, returnL)

/- `eina_inlist_promote` -/
def promote (mem : Memory N) (list : Option N) (item : N) : Option (Memory N × Option N) :=
  match list with
  | none => some (mem, none)
  | some list =>
    if item = list then
      some (mem, some list)
    else do
      let mem := match (mem item).next with
        | some next => mem.setPrev next (mem item).prev
        | none => mem
      let prev ← (mem item).prev
      let mem := mem.setNext prev (mem item).next
      let mem := if (mem list).last = some item then
          mem.setLast list (mem item).prev
        else
          mem
      let mem := (mem.setNext item (some list)).setPrev item
        none
      let mem := mem.setLast item (mem list).last
      some ((mem.setPrev list (some item)).setLast list none,
        some item)

/- `eina_inlist_demote` -/
def demote (mem : Memory N) (fuel : Nat) (list : Option N)
    (item : N) : Option (Memory N × Option N) :=
  match list with
  | none => some (mem, none)
  | some list =>
    if (mem list).last = some item then
      some (mem, some list)
    else do
      let mem ← match (mem list).last with
        | some _ => some mem
        | none => do
          let l ← lastOf mem fuel list
          some (mem.setLast list (some l))
      let (mem, l) := match (mem item).prev with
        | some prev => (mem.setNext prev (mem item).next, some list)
        | none => (mem, (mem item).next)
      let next ← (mem item).next
      let mem := mem.setPrev next (mem item).prev
      let last ← (mem list).last
      let mem := mem.setNext last (some item)
      let mem := mem.setPrev item (mem list).last
      let mem := mem.setNext item none
      let l ← l
      some (mem.setLast l (some item), some l)

---
-- Links Without an Item
---

open List

variable {mem : Memory N}

omit [DecidableEq N] in
/- What makes a list from its links -/
theorem Holds.of_linked {h : N} {ns : List N} (hLinked : DList.Linked (fun n => (mem n).next)
  (fun n => (mem n).prev) ns) (hHead : ns.head? = some h)
    (hLast : (mem h).last = ns.getLast?) : Holds mem (some h) ns := by
  refine ⟨hLinked, hHead.symm, fun h' hHead' => ?_⟩
  obtain rfl : h = h' := Option.some.inj (hHead.symm.trans hHead')
  exact hLast

variable {list : Option N} {as bs : List N} {n : N}

section

variable (hHolds : Holds mem list (as ++ n :: bs))

include hHolds

omit [DecidableEq N] in
/- The items of a list are distinct. -/
theorem Holds.apart : n ∉ as ++ bs := by
  have hNodup := hHolds.linked.nodup
  rw [perm_middle.nodup_iff, nodup_cons] at hNodup
  exact hNodup.1

omit [DecidableEq N] in
/- An item is not its own neighbour. -/
theorem Holds.next_ne : (mem n).next ≠ some n := by
  rw [hHolds.linked.next_eq]
  intro hNext
  apply hHolds.apart
  exact mem_append_right _ (mem_of_head? hNext)

omit [DecidableEq N] in
theorem Holds.prev_ne : (mem n).prev ≠ some n := by
  rw [hHolds.linked.prev_eq]
  intro hPrev
  apply hHolds.apart
  exact mem_append_left _ (mem_of_getLast? hPrev)

omit [DecidableEq N] in
/- The head is the item without a predecessor. -/
theorem Holds.head_of_prev (hPrev : (mem n).prev = none) : list = some n ∧ as = [] := by
  rw [hHolds.linked.prev_eq, getLast?_eq_none_iff] at hPrev
  subst hPrev
  exact ⟨hHolds.head, rfl⟩

/- The links when the neighbours of `n` are linked. -/
def outNext (mem : Memory N) (n m : N) : Option N :=
  if some m = (mem n).prev then (mem n).next else (mem m).next

def outPrev (mem : Memory N) (n m : N) : Option N :=
  if some m = (mem n).next then (mem n).prev else (mem m).prev

theorem Holds.out : DList.Linked (outNext mem n) (outPrev mem n) (as ++ bs) := by
  apply hHolds.linked.remove
  · intro m _
    rw [outNext, hHolds.linked.prev_eq, hHolds.linked.next_eq]
  · intro m _
    rw [outPrev, hHolds.linked.prev_eq, hHolds.linked.next_eq]

end

---
-- Removal
---

open Option

variable {m : N}

/- Apart from the item, the links are those without it. -/
theorem remove_links {list : N} (hApart : m ≠ n)
    (hNextNe : (mem n).next ≠ some n) (hInside :
    ¬ (n ≠ list ∧ (mem n).prev = none ∧ (mem n).next = none)) :
    ((remove mem (some list) n).1 m).next = outNext mem n m ∧
      ((remove mem (some list) n).1 m).prev = outPrev mem n m := by
  unfold remove
  dsimp only
  rw [if_neg hInside]
  unfold outNext outPrev
  cases hPrev : (mem n).prev with
  | none =>
    cases hNext : (mem n).next with
    | none =>
      simp only [hPrev, hNext]
      split <;> simp [hApart]
    | some q =>
      have hQ : n ≠ q := by
        rintro rfl
        exact hNextNe hNext
      simp only [Memory.prev_setPrev, Memory.next_setPrev, if_neg hQ, hPrev, hNext]
      split <;> simp [hApart]
  | some p =>
    cases hNext : (mem n).next with
    | none =>
      simp only [hPrev, hNext]
      split <;> simp [hApart]
    | some q =>
      have hQ : n ≠ q := by
        rintro rfl
        exact hNextNe hNext
      simp only [Memory.prev_setPrev, Memory.next_setPrev, if_neg hQ, hPrev, hNext]
      split <;> simp [hApart]

/- The head stays when the item has a predecessor. -/
theorem remove_inner {p : N} (list : N)
    (hPrev : (mem n).prev = some p) (hNextNe : (mem n).next ≠ some n) :
    (remove mem (some list) n).2 = some list ∧
      ((remove mem (some list) n).1 list).last =
        if (mem list).last = some n then some p
        else (mem list).last := by
  unfold remove
  cases hNext : (mem n).next with
  | none =>
    simp only [hPrev, hNext, reduceCtorEq, false_and, and_false,
      if_false, true_and, Memory.last_setNext]
    split <;> simp [hPrev]
  | some q =>
    have hQ : n ≠ q := by
      rintro rfl
      exact hNextNe hNext
    simp only [hPrev, reduceCtorEq, and_false, if_false, true_and, Memory.last_setNext,
      Memory.prev_setPrev, if_neg hQ, Memory.last_setPrev]
    split <;> simp [hPrev, hQ]

/- The item is taken out. -/
theorem remove_spec (hHolds : Holds mem list (as ++ n :: bs)) :
    Holds (remove mem list n).1 (remove mem list n).2 (as ++ bs) := by
  have hPrev := hHolds.linked.prev_eq
  have hNext := hHolds.linked.next_eq
  have hOut := hHolds.apart
  have hNextNe := hHolds.next_ne
  have hHead := hHolds.head
  cases list with
  | none =>
    cases as with
    | nil => exact nomatch hHead
    | cons a as => exact nomatch hHead
  | some list =>
  have hInside : ¬ (n ≠ list ∧ (mem n).prev = none ∧ (mem n).next = none) := by
    rintro ⟨hNe, hNone, -⟩
    exact hNe (some.inj (hHolds.head_of_prev hNone).1).symm
  have hLinked :
      DList.Linked (fun m => ((remove mem (some list) n).1 m).next)
      (fun m => ((remove mem (some list) n).1 m).prev) (as ++ bs) := by
    have hApart : ∀ m ∈ as ++ bs, m ≠ n := by
      rintro m hMem rfl
      exact hOut hMem
    apply hHolds.out.congr
    · intro m hMem
      exact (remove_links (hApart m hMem) hNextNe hInside).1
    · intro m hMem
      exact (remove_links (hApart m hMem) hNextNe hInside).2
  have hLast := hHolds.last_eq
  rcases eq_nil_or_concat as with rfl | ⟨cs, c, rfl⟩
  · obtain rfl : list = n := some.inj hHead
    have hPrev : (mem list).prev = none := hPrev
    cases bs with
    | nil =>
      have hNext : (mem list).next = none := hNext
      have hEmpty : (remove mem (some list) list).2 = none := by
        simp [remove, hPrev, hNext]
      rw [hEmpty]
      exact ⟨DList.linked_nil, rfl, fun h hHead => nomatch hHead⟩
    | cons b bs =>
      have hNext : (mem list).next = some b := hNext
      have hSecond : (remove mem (some list) list).2 = some b := by
        simp [remove, hPrev, hNext]
      rw [hSecond]
      refine .of_linked hLinked rfl ?_
      have hEnd : (b :: bs).getLast? ≠ some list := by
        intro hEnd
        exact hOut (mem_of_getLast? hEnd)
      have hLast : (mem list).last = (b :: bs).getLast? := hLast
      simp [remove, hPrev, hNext, hLast, hEnd]
  · rw [concat_eq_append] at *
    have hPrev : (mem n).prev = some c := by simpa using hPrev
    rcases remove_inner list hPrev hNextNe with ⟨hSame, hLast'⟩
    rw [hSame]
    refine .of_linked hLinked ?_ ?_
    · rw [hHead]
      cases cs <;> rfl
    · rw [hLast', hLast]
      cases bs with
      | nil => simp
      | cons b bs =>
        have hEnd : (b :: bs).getLast? ≠ some n := by
          intro hEnd
          exact hOut (mem_append_right _ (mem_of_getLast? hEnd))
        rw [getLast?_append_cons, getLast?_append_cons, getLast?_cons_cons, if_neg hEnd]

/-
  A removal writes to the item, to its neighbours and to the
  list, whose head it leaves alone when it does not end there.
-/
theorem remove_apart (hItem : m ≠ n) (hPrev : (mem n).prev ≠ some m)
    (hNext : (mem n).next ≠ some m) (hSelf : (mem n).next ≠ some n)
    (hList : list = some m →
      (mem m).last ≠ some n ∧ (mem n).prev ≠ none) : (remove mem list n).1 m = mem m := by
  cases list with
  | none => rfl
  | some list =>
    have hEnds : ∀ (mem' : Memory N) (x y : Option N),
        mem' m = mem m → x = (mem' list).last →
        (((if x = some n then mem'.setLast list y
          else mem').setNext n none).setPrev n none) m = mem m := by
      rintro mem' x y hSame rfl
      rw [Memory.setPrev_of_ne hItem, Memory.setNext_of_ne hItem]
      split
      · next hLast =>
          by_cases hHead : m = list
          · subst hHead
            rw [hSame] at hLast
            exact absurd hLast (hList rfl).1
          · rw [Memory.setLast_of_ne hHead, hSame]
      · exact hSame
    unfold remove
    dsimp only
    split
    · rfl
    · cases hQ : (mem n).next with
      | none =>
        cases hP : (mem n).prev with
        | none =>
          simp only [hQ, hP]
          exact hEnds mem _ _ rfl rfl
        | some p =>
          have hNe : m ≠ p := by
            rintro rfl
            exact hPrev hP
          simp only [hQ]
          exact hEnds _ _ _ (Memory.setNext_of_ne hNe) rfl
      | some q =>
        have hQNe : m ≠ q := by
          rintro rfl
          exact hNext hQ
        have hQn : n ≠ q := by
          rintro rfl
          exact hSelf hQ
        cases hP : (mem n).prev with
        | none =>
          simp only [Memory.prev_setPrev, if_neg hQn, Memory.next_setPrev, hQ, hP]
          refine hEnds _ _ _ ?_ rfl
          rw [Memory.setLast_of_ne hQNe, Memory.setPrev_of_ne hQNe]
        | some p =>
          have hNe : m ≠ p := by
            rintro rfl
            exact hPrev hP
          simp only [Memory.prev_setPrev, if_neg hQn, Memory.next_setPrev, hQ, hP]
          refine hEnds _ _ _ ?_ rfl
          rw [Memory.setNext_of_ne hNe, Memory.setPrev_of_ne hQNe]

/- No other links are written. -/
theorem remove_frame (hHolds : Holds mem list (as ++ n :: bs))
    (hOther : m ∉ as ++ n :: bs) : (remove mem list n).1 m = mem m := by
  have hPrev := hHolds.linked.prev_eq
  have hNext := hHolds.linked.next_eq
  refine remove_apart (fun hEq => hOther (by simp [hEq])) ?_ ?_ hHolds.next_ne ?_
  · rw [hPrev]
    intro hLast
    exact hOther (mem_append_left _ (mem_of_getLast? hLast))
  · rw [hNext]
    intro hFirst
    exact hOther (mem_append_right _ (mem_cons_of_mem _ (mem_of_head? hFirst)))
  · rintro rfl
    exact absurd (mem_of_head? hHolds.head.symm) hOther

---
-- Promotion and Demotion
---

theorem promote_links {list p : N} (hList : n ≠ list)
    (hPrev : (mem n).prev = some p) (hNextNe : (mem n).next ≠ some n) :
    ∃ mem', promote mem (some list) n = some (mem', some n) ∧
      (mem' n).next = some list ∧
      (mem' n).prev = none ∧ (mem' n).last = (if (mem list).last = some n then some p
        else (mem list).last) ∧
      ∀ m, m ≠ n → (mem' m).next = outNext mem n m ∧
        (mem' m).prev =
          if m = list then some n else outPrev mem n m := by
  unfold promote
  dsimp only
  rw [if_neg hList]
  unfold outNext outPrev
  cases hNext : (mem n).next with
  | none =>
    simp only [hPrev, bind_eq_bind, bind_some]
    refine ⟨_, rfl, ?_⟩
    split <;> simp_all
  | some q =>
    have hQ : n ≠ q := by
      rintro rfl
      exact hNextNe hNext
    simp only [Memory.prev_setPrev, if_neg hQ, hPrev, bind_eq_bind, bind_some]
    refine ⟨_, rfl, ?_⟩
    split <;> simp_all

/- The item becomes the head. -/
theorem promote_spec (hHolds : Holds mem list (as ++ n :: bs)) :
    ∃ mem', promote mem list n = some (mem', some n) ∧ Holds mem' (some n) (n :: (as ++ bs)) := by
  have hHead := hHolds.head
  cases as with
  | nil =>
    obtain rfl : list = some n := hHead
    exact ⟨mem, if_pos rfl, hHolds⟩
  | cons list' as =>
    obtain rfl : list = some list' := hHead
    have hOut := hHolds.apart
    have hList : n ≠ list' := by
      rintro rfl
      exact hOut (by simp)
    have hPrev := hHolds.linked.prev_eq
    have hLast := hHolds.last_eq
    have hEnd := getLast?_eq_some_getLast (cons_ne_nil list' as)
    rw [hEnd] at hPrev
    rcases promote_links hList hPrev hHolds.next_ne with ⟨mem', hRun, hNext', hPrev', hLast', hRest⟩
    refine ⟨mem', hRun, .of_linked ?_ rfl ?_⟩
    · have hLinked := hHolds.out
      rw [← nil_append (list' :: as ++ bs)] at hLinked
      refine hLinked.insert hOut hNext' hPrev' ?_ ?_
      · intro m hMem
        have hApart : m ≠ n := by
          rintro rfl
          exact hOut hMem
        rw [(hRest m hApart).1]
        rfl
      · intro m hMem
        have hApart : m ≠ n := by
          rintro rfl
          exact hOut hMem
        rw [(hRest m hApart).2]
        simp
    · rw [hLast', hLast]
      cases bs with
      | nil =>
        rw [getLast?_append_cons, getLast?_singleton,
          if_pos rfl, append_nil, getLast?_cons_cons, hEnd]
      | cons b bs =>
        have hBs : (b :: bs).getLast? ≠ some n := by
          intro hSome
          exact hOut (mem_append_right _ (mem_of_getLast? hSome))
        rw [getLast?_append_cons, getLast?_cons_cons,
          if_neg hBs, ← cons_append, getLast?_append_cons]

theorem demote_links {list q z : N} (fuel : Nat) (hLast : (mem list).last = some z) (hZ : z ≠ n)
    (hNext : (mem n).next = some q) (hPrevNe : (mem n).prev ≠ some n) :
    ∃ mem', demote mem fuel (some list) n =
        some (mem', some (if (mem n).prev = none then q
          else list)) ∧
      (mem' n).next = none ∧
      (mem' n).prev = some z ∧
      (mem' (if (mem n).prev = none then q else list)).last =
        some n ∧
      ∀ m, m ≠ n → (mem' m).next =
          (if m = z then some n else outNext mem n m) ∧
        (mem' m).prev = outPrev mem n m := by
  have hBefore : (mem list).last ≠ some n := by
    rw [hLast]
    exact fun h => hZ (some.inj h)
  unfold demote
  dsimp only
  rw [if_neg hBefore]
  unfold outNext outPrev
  cases hPrev : (mem n).prev with
  | none =>
    simp only [hLast, hPrev, hNext, Memory.last_setPrev, bind_eq_bind, bind_some, if_true]
    refine ⟨_, rfl, ?_⟩
    simp_all
  | some p =>
    have hP : n ≠ p := by
      rintro rfl
      exact hPrevNe hPrev
    simp only [hLast, hPrev, hNext, Memory.next_setNext, if_neg hP,
      Memory.last_setNext, Memory.last_setPrev, bind_eq_bind, bind_some]
    refine ⟨_, rfl, ?_⟩
    simp_all

/- The item becomes the last one. -/
theorem demote_spec (fuel : Nat)
    (hHolds : Holds mem list (as ++ n :: bs)) :
    ∃ mem' list', demote mem fuel list n =
        some (mem', some list') ∧
      Holds mem' (some list') (as ++ bs ++ [n]) := by
  have hHead := hHolds.head
  have hPrev := hHolds.linked.prev_eq
  have hNext := hHolds.linked.next_eq
  have hOut := hHolds.apart
  cases list with
  | none =>
    cases as with
    | nil => exact nomatch hHead
    | cons a as => exact nomatch hHead
  | some list =>
  have hLast := hHolds.last_eq
  cases bs with
  | nil =>
    rw [getLast?_append_cons, getLast?_singleton] at hLast
    refine ⟨mem, list, if_pos hLast, ?_⟩
    rwa [append_nil]
  | cons b bs =>
    have hEnd := getLast?_eq_some_getLast (cons_ne_nil b bs)
    rw [getLast?_append_cons, getLast?_cons_cons, hEnd] at hLast
    have hZ : (b :: bs).getLast (cons_ne_nil b bs) ≠ n := by
      intro hSame
      apply hOut
      rw [← hSame]
      exact mem_append_right _ (getLast_mem _)
    rcases demote_links fuel hLast hZ hNext hHolds.prev_ne
      with ⟨mem', hRun, hNext', hPrev', hLast', hRest⟩
    refine ⟨mem', _, hRun, .of_linked ?_ ?_ ?_⟩
    · have hLinked := hHolds.out
      rw [← append_nil (as ++ b :: bs)] at hLinked
      refine hLinked.insert (by simpa using hOut) hNext' ?_ ?_ ?_
      · rw [hPrev', getLast?_append_cons, hEnd]
      · intro m hMem
        have hApart : m ≠ n := by
          rintro rfl
          exact hOut (by simpa using hMem)
        rw [(hRest m hApart).1, getLast?_append_cons, hEnd]
        simp
      · intro m hMem
        have hApart : m ≠ n := by
          rintro rfl
          exact hOut (by simpa using hMem)
        rw [(hRest m hApart).2]
        simp
    · cases as with
      | nil =>
        rw [if_pos (show (mem n).prev = none from hPrev)]
        rfl
      | cons a as =>
        have hSome : (mem n).prev ≠ none := by
          rw [hPrev]
          simp
        rw [if_neg hSome]
        exact hHead.symm
    · rw [hLast', getLast?_append_cons, getLast?_singleton]

end Efl.Eina.Inlist
