import Efl.Eina.Inlist.Moves

/-
  Several inlists in one memory: which links a call leaves as
  they are, and lists whose `last` may be stale.

  Main declarations:
    * `Strung`
    * `remove_cleared`, `prepend_apart`, `appendRelative_apart`
    * `Strung.remove`, `Strung.prepend`
-/

---
-- Frames
---

namespace Efl.Eina.Inlist

variable {N : Type} [DecidableEq N]

/- The item has no neighbours any more. -/
theorem remove_cleared (mem : Memory N) (list n : N) :
    ((remove mem (some list) n).1 n).next = none ∧
      ((remove mem (some list) n).1 n).prev = none := by
  unfold remove
  dsimp only
  split
  · next hOut => exact ⟨hOut.2.2, hOut.2.1⟩
  · simp

variable {list : Option N} {item m : N}

theorem prepend_apart (mem : Memory N) (hItem : m ≠ item)
    (hList : list ≠ some m) : (prepend mem list item).1 m = mem m := by
  unfold prepend
  dsimp only
  cases list with
  | none =>
    dsimp only
    rw [Memory.setLast_of_ne hItem, Memory.setNext_of_ne hItem, Memory.setPrev_of_ne hItem]
  | some list =>
    have hNe : m ≠ list := fun hEq => hList (by rw [hEq])
    dsimp only
    rw [Memory.setLast_of_ne hNe, Memory.setLast_of_ne hItem,
      Memory.setPrev_of_ne hNe, Memory.setNext_of_ne hItem, Memory.setPrev_of_ne hItem]

variable {mem mem' : Memory N}

theorem appendRelative_apart {list h r : N} {fuel : Nat}
    (hRun : appendRelative mem fuel (some list) item (some r) =
      some (mem', h)) (hItem : m ≠ item) (hList : m ≠ list)
    (hR : m ≠ r) (hNext : (mem r).next ≠ some m) : mem' m = mem m := by
  have hEnds : ∀ (mem₁ mem₂ : Memory N), mem₁ m = mem m →
      mem₂ = (if (((mem₁.setNext r (some item)).setPrev item
          (some r)) item).next = none then
        ((mem₁.setNext r (some item)).setPrev item (some r)).setLast list (some item)
        else (mem₁.setNext r (some item)).setPrev item (some r)) →
      mem₂ m = mem m := by
    rintro mem₁ mem₂ hSame rfl
    split
    · rw [Memory.setLast_of_ne hList, Memory.setPrev_of_ne hItem, Memory.setNext_of_ne hR, hSame]
    · rw [Memory.setPrev_of_ne hItem, Memory.setNext_of_ne hR, hSame]
  unfold appendRelative at hRun
  dsimp only at hRun
  cases hQ : (mem r).next with
  | none =>
    rw [hQ] at hRun
    obtain ⟨rfl, -⟩ := Prod.mk.inj (Option.some.inj hRun)
    exact hEnds _ _ (Memory.setNext_of_ne hItem) rfl
  | some q =>
    have hNe : m ≠ q := by
      rintro rfl
      exact hNext hQ
    rw [hQ] at hRun
    obtain ⟨rfl, -⟩ := Prod.mk.inj (Option.some.inj hRun)
    refine hEnds _ _ ?_ rfl
    exact (Memory.setPrev_of_ne hNe).trans (Memory.setNext_of_ne hItem)

---
-- Lists Without an End
---

open List

/- A list as it is walked along -/
structure Strung (mem : Memory N) (list : Option N) (ns : List N) : Prop where
  linked : DList.Linked (fun n => (mem n).next)
    (fun n => (mem n).prev) ns
  head : list = ns.head?

variable {ns : List N}

omit [DecidableEq N] in
theorem Holds.strung (hHolds : Holds mem list ns) : Strung mem list ns :=
  ⟨hHolds.linked, hHolds.head⟩

omit [DecidableEq N] in
theorem Strung.congr (hStrung : Strung mem list ns)
    (hSame : ∀ m ∈ ns, mem' m = mem m) : Strung mem' list ns :=
  ⟨hStrung.linked.congr (fun m hMem => by rw [hSame m hMem])
    (fun m hMem => by rw [hSame m hMem]), hStrung.head⟩

omit [DecidableEq N] in
theorem Holds.congr (hHolds : Holds mem list ns)
    (hSame : ∀ m ∈ ns, mem' m = mem m) : Holds mem' list ns := by
  refine ⟨(hHolds.strung.congr hSame).linked, hHolds.head, ?_⟩
  intro h hHead
  rw [hSame h (mem_of_head? hHead)]
  exact hHolds.last h hHead

variable {n : N}

section

variable (hStrung : Strung mem list ns)

include hStrung

omit [DecidableEq N] in
theorem Strung.next_ne (hMem : n ∈ ns)
    (hOut : m ∉ ns) : (mem n).next ≠ some m ∧ (mem n).prev ≠ some m := by
  rcases append_of_mem hMem with ⟨as, bs, rfl⟩
  have hNext : (mem n).next = bs.head? := hStrung.linked.next_eq
  have hPrev : (mem n).prev = as.getLast? := hStrung.linked.prev_eq
  rw [hNext, hPrev]
  constructor
  · intro hHead
    exact hOut (mem_append_right _ (mem_cons_of_mem _ (mem_of_head? hHead)))
  · intro hLast
    exact hOut (mem_append_left _ (mem_of_getLast? hLast))

omit [DecidableEq N] in
/- Only the first item has none before it. -/
theorem Strung.eq_of_prev (hMem : n ∈ ns) (hPrev : (mem n).prev = none) : list = some n := by
  rcases append_of_mem hMem with ⟨as, bs, rfl⟩
  have hLast : (mem n).prev = as.getLast? := hStrung.linked.prev_eq
  rw [hPrev] at hLast
  obtain rfl := getLast?_eq_none_iff.mp hLast.symm
  exact hStrung.head

omit [DecidableEq N] in
theorem Strung.self_ne (hMem : n ∈ ns) : (mem n).next ≠ some n := by
  rcases append_of_mem hMem with ⟨as, bs, rfl⟩
  have hNext : (mem n).next = bs.head? := hStrung.linked.next_eq
  have hNodup := hStrung.linked.nodup
  rw [perm_middle.nodup_iff, nodup_cons] at hNodup
  rw [hNext]
  intro hHead
  exact hNodup.1 (mem_append_right _ (mem_of_head? hHead))

end

variable {as bs : List N}

section

variable (hStrung : Strung mem list (as ++ n :: bs))

include hStrung

/- The links of a list without one of its items -/
theorem Strung.out : DList.Linked (outNext mem n) (outPrev mem n) (as ++ bs) := by
  apply hStrung.linked.remove
  · intro m _
    rw [outNext, hStrung.linked.prev_eq, hStrung.linked.next_eq]
  · intro m _
    rw [outPrev, hStrung.linked.prev_eq, hStrung.linked.next_eq]

/- An item that is taken out, from this list or another one -/
theorem Strung.linked_remove {l : N}
    (hInside : ¬ (n ≠ l ∧ (mem n).prev = none ∧ (mem n).next = none)) :
    DList.Linked (fun m => ((Inlist.remove mem (some l) n).1 m).next)
      (fun m => ((Inlist.remove mem (some l) n).1 m).prev) (as ++ bs) :=
      by
  have hSelf := hStrung.self_ne (n := n) (by simp)
  have hNodup := hStrung.linked.nodup
  rw [perm_middle.nodup_iff, nodup_cons] at hNodup
  have hApart : ∀ m ∈ as ++ bs, m ≠ n := by
    rintro m hMem rfl
    exact hNodup.1 hMem
  apply hStrung.out.congr
  · intro m hMem
    exact (remove_links (hApart m hMem) hSelf hInside).1
  · intro m hMem
    exact (remove_links (hApart m hMem) hSelf hInside).2

theorem Strung.remove :
    Strung (Inlist.remove mem list n).1 (Inlist.remove mem list n).2 (as ++ bs) := by
  have hPrev : (mem n).prev = as.getLast? := hStrung.linked.prev_eq
  have hNext : (mem n).next = bs.head? := hStrung.linked.next_eq
  have hHead := hStrung.head
  cases list with
  | none =>
    cases as with
    | nil => exact nomatch hHead
    | cons a as => exact nomatch hHead
  | some list =>
    have hInside : ¬ (n ≠ list ∧ (mem n).prev = none ∧ (mem n).next = none) := by
      rintro ⟨hNe, hNone, -⟩
      rw [hPrev, getLast?_eq_none_iff] at hNone
      subst hNone
      exact hNe (Option.some.inj hHead).symm
    refine ⟨hStrung.linked_remove hInside, ?_⟩
    cases as with
    | nil =>
      obtain rfl : list = n := Option.some.inj hHead
      have hPrev : (mem list).prev = none := hPrev
      cases bs with
      | nil =>
        have hNext : (mem list).next = none := hNext
        simp [Inlist.remove, hPrev, hNext]
      | cons b bs =>
        have hNext : (mem list).next = some b := hNext
        simp [Inlist.remove, hPrev, hNext]
    | cons a as =>
      have hSome : ∃ p, (a :: as).getLast? = some p := ⟨_, getLast?_eq_some_getLast (by simp)⟩
      rcases hSome with ⟨p, hP⟩
      rw [hP] at hPrev
      have hSelf := hStrung.self_ne (n := n) (by simp)
      rw [(remove_inner list hPrev hSelf).1, hHead]
      rfl

end

theorem Strung.prepend (hStrung : Strung mem list ns)
    (hNew : item ∉ ns) :
    Strung (Inlist.prepend mem list item).1
      (some (Inlist.prepend mem list item).2) (item :: ns) := by
  cases list with
  | none =>
    have hEmpty := hStrung.head.symm
    rw [head?_eq_none_iff] at hEmpty
    subst hEmpty
    exact ⟨⟨nodup_singleton _, by simp [Inlist.prepend], by simp [Inlist.prepend], trivial⟩, rfl⟩
  | some list =>
    have hHead := hStrung.head
    have hList : item ≠ list := by
      rintro rfl
      exact hNew (mem_of_head? hHead.symm)
    refine ⟨?_, rfl⟩
    have hLinked := hStrung.linked
    rw [← nil_append ns] at hLinked
    refine hLinked.insert hNew ?_ ?_ ?_ ?_
    · simp [Inlist.prepend, ← hHead]
    · simp [Inlist.prepend, hList]
    · intro m hm
      have hOther : m ≠ item := by
        rintro rfl
        exact hNew hm
      simp [Inlist.prepend, hOther]
    · intro m hm
      have hOther : m ≠ item := by
        rintro rfl
        exact hNew hm
      simp [Inlist.prepend, ← hHead, hOther]

end Efl.Eina.Inlist
