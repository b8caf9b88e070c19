import Efl.Lib.Lists
import Mathlib.Data.List.Nodup

/-
  Doubly linked lists.

  The links are two functions on nodes, so that any record
  with two pointers will do.

  Main declarations:
    * `DList.Seg`
    * `DList.Linked`
    * `DList.seg_append`
    * `DList.Linked.insert`
-/

---
-- Segments
---

namespace Efl.DList

open List

variable {N : Type}

/-
  The nodes are linked in this order, the first one back to
  `p` and the last one on to `q`.
-/
def Seg (next prev : N → Option N) : Option N → List N → Option N → Prop
  | _, [], _ => True
  | p, n :: ns, q =>
    prev n = p ∧ next n = ns.head?.or q ∧
      Seg next prev (some n) ns q

variable {next prev : N → Option N} {p q : Option N}

@[simp] theorem seg_nil : Seg next prev p [] q := trivial

variable {n : N} {ns : List N}

theorem seg_cons :
    Seg next prev p (n :: ns) q ↔
      prev n = p ∧ next n = ns.head?.or q ∧ Seg next prev (some n) ns q := Iff.rfl

variable {as bs : List N}

theorem seg_append :
    Seg next prev p (as ++ bs) q ↔
      Seg next prev p as (bs.head?.or q) ∧ Seg next prev (as.getLast?.or p) bs q := by
  induction as generalizing p with
  | nil => simp
  | cons a as ih =>
    have hHead : (as ++ bs).head?.or q = as.head?.or (bs.head?.or q) := by
      cases as <;> simp
    have hLast : (a :: as).getLast?.or p = as.getLast?.or (some a) := by
      cases as with
      | nil => simp
      | cons a' as =>
        rw [getLast?_cons_cons]
        rcases hEnd : (a' :: as).getLast? with - | c
        · simp at hEnd
        · simp
    rw [cons_append, seg_cons, seg_cons, ih, hHead, hLast]
    simp only [and_assoc]

variable {next' prev' : N → Option N}

/- Only the links of the nodes matter. -/
theorem Seg.congr (hSeg : Seg next prev p ns q) (hNext : ∀ n ∈ ns, next' n = next n)
    (hPrev : ∀ n ∈ ns, prev' n = prev n) : Seg next' prev' p ns q := by
  induction ns generalizing p with
  | nil => trivial
  | cons n ns ih =>
    rcases hSeg with ⟨hp, hn, hRest⟩
    refine ⟨?_, ?_, ih hRest (fun m hm => hNext m (by simp [hm]))
      (fun m hm => hPrev m (by simp [hm]))⟩
    · rw [hPrev n (by simp), hp]
    · rw [hNext n (by simp), hn]

section

variable [DecidableEq N]

/- Another successor of the last node. -/
theorem Seg.setNext {q' : Option N} (hSeg : Seg next prev p ns q)
    (hNodup : ns.Nodup) (hNext : ∀ n ∈ ns, next' n =
      if some n = ns.getLast? then q' else next n)
    (hPrev : ∀ n ∈ ns, prev' n = prev n) : Seg next' prev' p ns q' := by
  rcases eq_nil_or_concat ns with rfl | ⟨as, a, rfl⟩
  · trivial
  · rw [concat_eq_append] at *
    rw [seg_append] at hSeg ⊢
    have hApart : ∀ n ∈ as, n ≠ a := by
      rintro n hn rfl
      have h := (nodup_append.mp hNodup).2.2 n hn n
      simp at h
    refine ⟨hSeg.1.congr ?_ ?_, ?_, ?_, trivial⟩
    · intro n hn
      rw [hNext n (by simp [hn])]
      simp [hApart n hn]
    · intro n hn
      exact hPrev n (by simp [hn])
    · rw [hPrev a (by simp), hSeg.2.1]
    · rw [hNext a (by simp)]
      simp

/- Another predecessor of the first node. -/
theorem Seg.setPrev {p' : Option N} (hSeg : Seg next prev p ns q)
    (hNodup : ns.Nodup) (hNext : ∀ n ∈ ns, next' n = next n)
    (hPrev : ∀ n ∈ ns, prev' n =
      if some n = ns.head? then p' else prev n) : Seg next' prev' p' ns q := by
  cases ns with
  | nil => trivial
  | cons a as =>
    rcases hSeg with ⟨-, hn, hRest⟩
    refine ⟨by rw [hPrev a (by simp)]; simp, by rw [hNext a (by simp), hn], hRest.congr ?_ ?_⟩
    · intro n hMem
      exact hNext n (by simp [hMem])
    · intro n hMem
      have hApart : n ≠ a := by
        rintro rfl
        exact (nodup_cons.mp hNodup).1 hMem
      rw [hPrev n (by simp [hMem])]
      simp [hApart]

end

---
-- Lists
---

/- The nodes form a whole list. -/
structure Linked (next prev : N → Option N) (ns : List N) : Prop where
  nodup : ns.Nodup
  seg : Seg next prev none ns none

theorem linked_nil : Linked next prev [] := ⟨nodup_nil, trivial⟩

theorem Linked.congr (hLinked : Linked next prev ns) (hNext : ∀ n ∈ ns, next' n = next n)
    (hPrev : ∀ n ∈ ns, prev' n = prev n) : Linked next' prev' ns :=
  ⟨hLinked.nodup, hLinked.seg.congr hNext hPrev⟩

/- A list that is read backwards. -/
theorem Seg.reverse (hSeg : Seg next prev p ns q) : Seg prev next q ns.reverse p := by
  induction ns generalizing p with
  | nil => trivial
  | cons n ns ih =>
    rcases hSeg with ⟨hp, hn, hRest⟩
    rw [reverse_cons, seg_append]
    refine ⟨by simpa using ih hRest, ?_, by simpa using hp, trivial⟩
    rw [getLast?_reverse]
    exact hn

theorem Linked.reverse (hLinked : Linked next prev ns) : Linked prev next ns.reverse :=
  ⟨nodup_reverse.mpr hLinked.nodup, hLinked.seg.reverse⟩

/- The neighbours of a node. -/
theorem Linked.next_eq (hLinked : Linked next prev (as ++ n :: bs)) :
    next n = bs.head? := by
  have hSeg := (seg_append.mp hLinked.seg).2
  simpa using hSeg.2.1

theorem Linked.prev_eq (hLinked : Linked next prev (as ++ n :: bs)) : prev n = as.getLast? := by
  have hSeg := (seg_append.mp hLinked.seg).2
  simpa using hSeg.1

/- The same by positions. -/
theorem Linked.next_get {i : Nat} (hLinked : Linked next prev ns)
    (hGet : ns[i]? = some n) : next n = ns[i + 1]? := by
  rw [Lists.split_get hGet] at hLinked
  rw [hLinked.next_eq, head?_drop]

theorem Linked.prev_get {i : Nat} (hLinked : Linked next prev ns)
    (hGet : ns[i + 1]? = some n) : prev n = ns[i]? := by
  have hi := (List.getElem?_eq_some_iff.mp hGet).1
  rw [Lists.split_get hGet] at hLinked
  rw [hLinked.prev_eq, getLast?_take]
  simp [getElem?_eq_getElem (show i < ns.length by omega)]

variable [DecidableEq N]

/- A new node between two parts of a list. -/
theorem Linked.insert (hLinked : Linked next prev (as ++ bs))
    (hNew : n ∉ as ++ bs) (hNextNew : next' n = bs.head?) (hPrevNew : prev' n = as.getLast?)
    (hNext : ∀ m ∈ as ++ bs, next' m =
      if some m = as.getLast? then some n else next m)
    (hPrev : ∀ m ∈ as ++ bs, prev' m =
      if some m = bs.head? then some n else prev m) : Linked next' prev' (as ++ n :: bs) := by
  rcases hLinked with ⟨hNodup, hSeg⟩
  rcases nodup_append.mp hNodup with ⟨hAs, hBs, hApart⟩
  rcases seg_append.mp hSeg with ⟨hFirst, hSecond⟩
  refine ⟨?_, ?_⟩
  · rw [perm_middle.nodup_iff, nodup_cons]
    exact ⟨hNew, hNodup⟩
  · rw [seg_append, seg_cons]
    refine ⟨?_, ?_, ?_, ?_⟩
    · apply hFirst.setNext hAs
      · intro m hm
        simpa using hNext m (by simp [hm])
      · intro m hm
        rw [hPrev m (by simp [hm]), if_neg]
        intro hHead
        exact hApart m hm m (mem_of_head? hHead.symm) rfl
    · simpa using hPrevNew
    · simpa using hNextNew
    · apply hSecond.setPrev hBs
      · intro m hm
        rw [hNext m (by simp [hm]), if_neg]
        intro hLast
        exact hApart m (mem_of_getLast? hLast.symm) m hm rfl
      · intro m hm
        exact hPrev m (by simp [hm])

/- A node is taken out of a list. -/
theorem Linked.remove (hLinked : Linked next prev (as ++ n :: bs))
    (hNext : ∀ m ∈ as ++ bs, next' m =
      if some m = as.getLast? then bs.head? else next m)
    (hPrev : ∀ m ∈ as ++ bs, prev' m =
      if some m = bs.head? then as.getLast? else prev m) : Linked next' prev' (as ++ bs) := by
  rcases hLinked with ⟨hNodup, hSeg⟩
  rw [perm_middle.nodup_iff, nodup_cons] at hNodup
  rcases nodup_append.mp hNodup.2 with ⟨hAs, hBs, hApart⟩
  rw [seg_append, seg_cons] at hSeg
  rcases hSeg with ⟨hFirst, -, -, hSecond⟩
  refine ⟨hNodup.2, seg_append.mpr ⟨?_, ?_⟩⟩
  · apply hFirst.setNext hAs
    · intro m hm
      simpa using hNext m (by simp [hm])
    · intro m hm
      rw [hPrev m (by simp [hm]), if_neg]
      intro hHead
      exact hApart m hm m (mem_of_head? hHead.symm) rfl
  · apply hSecond.setPrev hBs
    · intro m hm
      rw [hNext m (by simp [hm]), if_neg]
      intro hLast
      exact hApart m (mem_of_getLast? hLast.symm) m hm
        rfl
    · intro m hm
      simpa using hPrev m (by simp [hm])

/- The list ends earlier. -/
theorem Linked.take (hLinked : Linked next prev (as ++ bs))
    (hNext : ∀ m ∈ as, next' m =
      if some m = as.getLast? then none else next m)
    (hPrev : ∀ m ∈ as, prev' m = prev m) : Linked next' prev' as := by
  rcases hLinked with ⟨hNodup, hSeg⟩
  have hAs := (nodup_append.mp hNodup).1
  exact ⟨hAs, (seg_append.mp hSeg).1.setNext hAs hNext hPrev⟩

end Efl.DList
