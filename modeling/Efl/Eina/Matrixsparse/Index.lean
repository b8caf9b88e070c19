import Efl.Lib.DList
import Efl.Eina.Matrixsparse.Model

/-
  Lists with ascending indices.

  Main declarations:
    * `Matrixsparse.Indexed`
    * `Matrixsparse.idxGet_spec`
    * `Matrixsparse.siblingsFind_spec`
-/

---
-- Indexed Lists
---

namespace Efl.Eina.Matrixsparse

variable {N α : Type} [DecidableEq N]

/- The nodes are linked one after the other. -/
abbrev LinkedIn (h : Nodes N α) (ns : List N) : Prop :=
  DList.Linked (fun n => (h.node n).next)
    (fun n => (h.node n).prev) ns

/-
  A list of rows or of cells: linked both ways, in strictly
  ascending order, with all pointers into it.
-/
structure Indexed (h : Nodes N α) (e : Ends N) (ns : List N) : Prop where
  linked : LinkedIn h ns
  live : ∀ n ∈ ns, n ∈ h.live
  ascending : ns.Pairwise
    fun a b => (h.node a).idx < (h.node b).idx
  first_eq : e.first = ns.head?
  last_eq : e.last = ns.getLast?
  used_mem : ∀ n, e.lastUsed = some n → n ∈ ns

variable {h' : Nodes N α}

omit [DecidableEq N] in
/- Another heap with the same links in the list. -/
theorem Indexed.congr {h : Nodes N α} {e : Ends N} {ns : List N}
    (hIndexed : Indexed h e ns) (hNode : ∀ n ∈ ns,
      (h'.node n).next = (h.node n).next ∧
        (h'.node n).prev = (h.node n).prev ∧ (h'.node n).idx = (h.node n).idx)
    (hLive : ∀ n ∈ ns, n ∈ h'.live) : Indexed h' e ns := by
  rcases hIndexed with ⟨hLinked, -, hAscending, hFirst, hLast, hUsed⟩
  refine ⟨hLinked.congr ?_ ?_, hLive, ?_, hFirst, hLast, hUsed⟩
  · intro n hn
    exact (hNode n hn).1
  · intro n hn
    exact (hNode n hn).2.1
  · refine hAscending.imp_of_mem ?_
    intro a b ha hb hLess
    rw [(hNode a ha).2.2, (hNode b hb).2.2]
    exact hLess

variable {h : Nodes N α} {e : Ends N} {ns : List N}

omit [DecidableEq N] in
/- Another node that was used last. -/
theorem Indexed.setUsed (hIndexed : Indexed h e ns) (used : Option N)
    (hUsed : ∀ n, used = some n → n ∈ ns) : Indexed h { e with lastUsed := used } ns :=
  ⟨hIndexed.linked, hIndexed.live, hIndexed.ascending, hIndexed.first_eq, hIndexed.last_eq, hUsed⟩

/- The nodes in the order of `dir`. -/
def Dir.list (dir : Dir) (ns : List N) : List N :=
  match dir with
  | .forward => ns
  | .backward => ns.reverse

variable {n : N}

omit [DecidableEq N] in
@[simp] theorem mem_list (dir : Dir) : n ∈ dir.list ns ↔ n ∈ ns := by
  cases dir <;> simp [Dir.list]

omit [DecidableEq N] in
theorem length_list (dir : Dir) (ns : List N) : (dir.list ns).length = ns.length := by
  cases dir <;> simp [Dir.list]

variable {as bs : List N} {dir : Dir}

omit [DecidableEq N] in
theorem Indexed.along_eq (hIndexed : Indexed h e ns)
    (hList : dir.list ns = as ++ n :: bs) : (h.node n).along dir = bs.head? := by
  cases dir with
  | forward =>
    have hLinked := hIndexed.linked
    rw [show ns = as ++ n :: bs from hList] at hLinked
    exact hLinked.next_eq
  | backward =>
    have hLinked := hIndexed.linked.reverse
    rw [show ns.reverse = as ++ n :: bs from hList] at hLinked
    exact hLinked.next_eq

omit [DecidableEq N] in
theorem Indexed.pairwise_list (hIndexed : Indexed h e ns) (dir : Dir) :
    (dir.list ns).Pairwise fun a b => dir.Passed (h.node a).idx (h.node b).idx := by
  cases dir with
  | forward => exact hIndexed.ascending
  | backward => exact List.pairwise_reverse.mpr hIndexed.ascending

variable {i j : Nat}

theorem Dir.Passed.trans {k : Nat} (hFirst : dir.Passed i j)
    (hSecond : dir.Passed j k) : dir.Passed i k := by
  cases dir with
  | forward => exact Nat.lt_trans hFirst hSecond
  | backward => exact Nat.lt_trans hSecond hFirst

theorem Dir.Passed.ne (hPassed : dir.Passed i j) : i ≠ j := by
  cases dir with
  | forward => exact Nat.ne_of_lt hPassed
  | backward => exact (Nat.ne_of_lt hPassed).symm

theorem Dir.passed_of_not (hNot : ¬ dir.Passed i j) (hNe : j ≠ i) : dir.Passed j i := by
  cases dir with
  | forward =>
    simp only [Dir.Passed] at hNot ⊢
    omega
  | backward =>
    simp only [Dir.Passed] at hNot ⊢
    omega

---
-- Lookups
---

open List Option

/-
  A walk in this direction may start here: no node before it
  can be the one with the index.
-/
def Start (h : Nodes N α) (ns : List N) (idx : Nat) (n : N) (dir : Dir) : Prop :=
  ∃ as bs, dir.list ns = as ++ n :: bs ∧
    ∀ a ∈ as, dir.Passed (h.node a).idx idx

variable (hIndexed : Indexed h e ns)

include hIndexed

omit [DecidableEq N] in
theorem Indexed.start_first
    (hFirst : e.first = some n) (idx : Nat) : Start h ns idx n .forward := by
  rw [hIndexed.first_eq] at hFirst
  rcases head?_eq_some_iff.mp hFirst with ⟨bs, rfl⟩
  exact ⟨[], bs, rfl, by simp⟩

omit [DecidableEq N] in
theorem Indexed.start_last
    (hLast : e.last = some n) (idx : Nat) : Start h ns idx n .backward := by
  rw [hIndexed.last_eq] at hLast
  rcases getLast?_eq_some_iff.mp hLast with ⟨as, rfl⟩
  exact ⟨[], as.reverse, by simp [Dir.list], by simp⟩

variable {idx : Nat}

omit [DecidableEq N] in
/- All nodes before this one are farther from the index. -/
theorem Indexed.start_used (hMem : n ∈ ns)
    (hNear : ¬ dir.Passed idx (h.node n).idx) : Start h ns idx n dir := by
  have hList : n ∈ dir.list ns := (mem_list dir).mpr hMem
  rcases append_of_mem hList with ⟨as, bs, hEq⟩
  refine ⟨as, bs, hEq, ?_⟩
  intro a ha
  have hPairs := hIndexed.pairwise_list dir
  rw [hEq] at hPairs
  have hBefore := (pairwise_append.mp hPairs).2.2 a ha n (by simp)
  by_cases hSame : (h.node n).idx = idx
  · rw [← hSame]
    exact hBefore
  · exact hBefore.trans (Dir.passed_of_not hNear hSame)

omit hIndexed in
theorem findParmsGet_spec (idx : Nat) (hIndexed : Indexed h e ns)
    (hNonempty : ns ≠ []) :
    ∃ n dir, findParmsGet h e idx = some (n, dir) ∧ Start h ns idx n dir := by
  have hFirst := hIndexed.first_eq
  have hLast := hIndexed.last_eq
  rcases hHead : ns.head? with - | first
  · simp [hNonempty] at hHead
  rcases hEnd : ns.getLast? with - | last
  · simp [hNonempty] at hEnd
  rw [hHead] at hFirst
  rw [hEnd] at hLast
  have hReadFirst := Heap.read_of_mem (hIndexed.live first (mem_of_head? hHead))
  have hReadLast := Heap.read_of_mem (hIndexed.live last (mem_of_getLast? hEnd))
  unfold findParmsGet
  simp only [hFirst, hLast, hReadFirst, hReadLast, bind_eq_bind, bind_some]
  -- The better end is a good start, and stays the choice.
  have hStart : ∀ d : N × Dir × Nat, d = (if ulongSub idx
      (h.node first).idx > ulongSub (h.node last).idx idx then
          (last, Dir.backward, ulongSub (h.node last).idx idx)
        else
          (first, Dir.forward, ulongSub idx (h.node first).idx)) →
      Start h ns idx d.1 d.2.1 := by
    rintro d rfl
    split
    · exact hIndexed.start_last hLast idx
    · exact hIndexed.start_first hFirst idx
  generalize (if ulongSub idx (h.node first).idx >
    ulongSub (h.node last).idx idx then _ else _) = d at hStart ⊢
  have hChoice := hStart d rfl
  rcases d with ⟨n, dir, dist⟩
  cases hUsed : e.lastUsed with
  | none => exact ⟨n, dir, rfl, hChoice⟩
  | some used =>
    have hMem := hIndexed.used_mem used hUsed
    simp only [Heap.read_of_mem (hIndexed.live used hMem), bind_some]
    split
    · split
      · exact ⟨_, _, rfl, hIndexed.start_used hMem (by simp only [Dir.Passed]; omega)⟩
      · exact ⟨n, dir, rfl, hChoice⟩
    · split
      · exact ⟨_, _, rfl, hIndexed.start_used hMem (by simp only [Dir.Passed]; omega)⟩
      · exact ⟨n, dir, rfl, hChoice⟩

variable {fuel : Nat}

/- A walk finds the node with the index, if there is one. -/
theorem findFrom_spec (hList : dir.list ns = as ++ n :: bs)
    (hBefore : ∀ a ∈ as, dir.Passed (h.node a).idx idx)
    (hFuel : bs.length < fuel) :
    ∃ found, findFrom h idx dir fuel (some n) = some found ∧
      (∀ m, found = some m → m ∈ ns ∧ (h.node m).idx = idx) ∧
      (found = none → ∀ m ∈ ns, (h.node m).idx ≠ idx) := by
  induction fuel generalizing as n bs with
  | zero => omega
  | succ fuel ih =>
    have hMem : n ∈ ns := by
      rw [← mem_list dir, hList]
      simp
    have hPairs := hIndexed.pairwise_list dir
    rw [hList] at hPairs
    unfold findFrom
    simp only [Heap.read_of_mem (hIndexed.live n hMem), bind_eq_bind, bind_some]
    split
    · rename_i hSame
      exact ⟨_, rfl, by rintro m ⟨⟩; exact ⟨hMem, hSame⟩, by simp⟩
    · rename_i hOther
      split
      · rename_i hPassed
        refine ⟨_, rfl, by simp, ?_⟩
        intro _ m hm
        rw [← mem_list dir, hList] at hm
        rcases mem_append.mp hm with hm | hm
        · exact (hBefore m hm).ne
        · rcases mem_cons.mp hm with rfl | hm
          · exact hOther
          · have hAfter := rel_of_pairwise_cons (pairwise_append.mp hPairs).2.1 hm
            exact (hPassed.trans hAfter).ne.symm
      · rename_i hPassed
        have hNear := Dir.passed_of_not hPassed hOther
        rw [hIndexed.along_eq hList]
        cases bs with
        | nil =>
          refine ⟨none, by cases fuel <;> rfl, by simp, ?_⟩
          intro _ m hm
          rw [← mem_list dir, hList] at hm
          rcases mem_append.mp hm with hm | hm
          · exact (hBefore m hm).ne
          · rw [mem_singleton.mp hm]
            exact hNear.ne
        | cons b bs =>
          simp only [length_cons] at hFuel
          have hList' : dir.list ns = (as ++ [n]) ++ b :: bs := by
            simp [hList]
          refine ih hList' ?_ (by omega)
          intro a ha
          rcases mem_append.mp ha with ha | ha
          · exact hBefore a ha
          · rw [mem_singleton.mp ha]
            exact hNear

/- The fuel is enough for a walk through a list. -/
theorem Indexed.length_lt
    (hList : dir.list ns = as ++ n :: bs) : bs.length < h.live.card := by
  have hLength := Heap.length_le_card hIndexed.linked.nodup hIndexed.live
  rw [← length_list dir ns, hList] at hLength
  simp only [length_append, length_cons] at hLength
  omega

omit hIndexed

theorem usedIs_spec (idx : Nat) (hIndexed : Indexed h e ns) :
    (∃ used, e.lastUsed = some used ∧ usedIs h e idx = some true ∧
      used ∈ ns ∧ (h.node used).idx = idx) ∨
    usedIs h e idx = some false := by
  unfold usedIs
  cases hUsed : e.lastUsed with
  | none => exact Or.inr rfl
  | some used =>
    have hMem := hIndexed.used_mem used hUsed
    simp only [Heap.read_of_mem (hIndexed.live used hMem), bind_eq_bind, bind_some]
    by_cases hSame : (h.node used).idx = idx
    · exact Or.inl ⟨used, rfl, by simp [hSame], hMem, hSame⟩
    · exact Or.inr (by simp [hSame])

/-
  `_row_idx_get` and `_row_cell_idx_get` find the node with
  the index, if there is one.  They change `last_used` only.
-/
theorem idxGet_spec (idx : Nat) (hIndexed : Indexed h e ns) :
    ∃ e' found, idxGet h e idx = some (e', found) ∧
      Indexed h e' ns ∧
      (∀ m, found = some m → m ∈ ns ∧ (h.node m).idx = idx) ∧
      (found = none → ∀ m ∈ ns, (h.node m).idx ≠ idx) := by
  unfold idxGet
  cases ns with
  | nil =>
    rw [hIndexed.first_eq]
    exact ⟨e, none, rfl, hIndexed, by simp, by simp⟩
  | cons first rest =>
    rcases hEnd : (first :: rest).getLast? with - | last
    · simp at hEnd
    have hFirst : e.first = some first := hIndexed.first_eq
    have hLast := hIndexed.last_eq
    rw [hEnd] at hLast
    have hFirstMem : first ∈ first :: rest := by simp
    have hLastMem := mem_of_getLast? hEnd
    simp only [hFirst, hLast, Heap.read_of_mem (hIndexed.live first hFirstMem),
      Heap.read_of_mem (hIndexed.live last hLastMem), bind_eq_bind, bind_some]
    split
    · rename_i hSame
      exact ⟨_, _, rfl, hIndexed, by rintro m ⟨⟩; exact ⟨hFirstMem, hSame⟩, by simp⟩
    split
    · rename_i hOther hBelow
      refine ⟨_, _, rfl, hIndexed, by simp, ?_⟩
      intro _ m hm
      rcases mem_cons.mp hm with rfl | hm
      · exact hOther
      · have hLess := rel_of_pairwise_cons hIndexed.ascending hm
        omega
    split
    · rename_i hSame
      exact ⟨_, _, rfl, hIndexed, by rintro m ⟨⟩; exact ⟨hLastMem, hSame⟩, by simp⟩
    split
    · rename_i hOther hAbove
      refine ⟨_, _, rfl, hIndexed, by simp, ?_⟩
      intro _ m hm
      rcases getLast?_eq_some_iff.mp hEnd with ⟨as, hList⟩
      rw [hList] at hm
      rcases mem_append.mp hm with hm | hm
      · have hPairs := hIndexed.ascending
        rw [hList] at hPairs
        have hLess := (pairwise_append.mp hPairs).2.2 m hm last (by simp)
        omega
      · rw [mem_singleton.mp hm]
        exact hOther
    rcases usedIs_spec idx hIndexed with ⟨used, hUsed, hTest, hMem, hSame⟩ | hTest
    · simp only [hTest, bind_some, if_true]
      refine ⟨_, _, rfl, hIndexed, ?_, by simp [hUsed]⟩
      intro m hm
      rw [hUsed] at hm
      obtain rfl := some.inj hm
      exact ⟨hMem, hSame⟩
    · simp only [hTest, bind_some, Bool.false_eq_true, if_false]
      rcases findParmsGet_spec idx hIndexed (by simp) with ⟨n, dir, hParms, as, bs, hList, hBefore⟩
      rcases findFrom_spec hIndexed hList hBefore
          (hIndexed.length_lt hList) with ⟨found, hFind, hSome, hNone⟩
      simp only [hParms, hFind, bind_some]
      cases found with
      | none =>
        exact ⟨_, _, rfl, hIndexed, by simp, fun _ =>
          hNone rfl⟩
      | some m =>
        refine ⟨_, _, rfl, ?_, ?_, by simp⟩
        · rw [← hFirst, ← hLast]
          apply hIndexed.setUsed
          rintro k ⟨⟩
          exact (hSome m rfl).1
        · rintro k ⟨⟩
          exact hSome m rfl

---
-- Insertion
---

open Function

/- A walk stops at the first node behind the index. -/
theorem passFrom_spec (hIndexed : Indexed h e ns) (hList : dir.list ns = as ++ n :: bs)
    (hBefore : ∀ a ∈ as, dir.Passed (h.node a).idx idx) (hNew : ∀ m ∈ ns, (h.node m).idx ≠ idx)
    (hEnd : ∃ m ∈ ns, dir.Passed idx (h.node m).idx)
    (hFuel : bs.length < fuel) :
    ∃ as m bs, passFrom h idx dir fuel (some n) = some m ∧
      dir.list ns = as ++ m :: bs ∧
      (∀ a ∈ as, dir.Passed (h.node a).idx idx) ∧ ∀ b ∈ m :: bs, dir.Passed idx (h.node b).idx := by
  induction fuel generalizing as n bs with
  | zero => omega
  | succ fuel ih =>
    have hMem : n ∈ ns := by
      rw [← mem_list dir, hList]
      simp
    have hPairs := hIndexed.pairwise_list dir
    rw [hList] at hPairs
    have hAfter := pairwise_cons.mp (pairwise_append.mp hPairs).2.1
    unfold passFrom
    simp only [Heap.read_of_mem (hIndexed.live n hMem), bind_eq_bind, bind_some]
    split
    · rename_i hPassed
      refine ⟨as, n, bs, rfl, hList, hBefore, ?_⟩
      intro b hb
      rcases mem_cons.mp hb with rfl | hb
      · exact hPassed
      · exact hPassed.trans (hAfter.1 b hb)
    · rename_i hPassed
      have hNear := Dir.passed_of_not hPassed (hNew n hMem)
      have hBefore' : ∀ a ∈ as ++ [n], dir.Passed (h.node a).idx idx := by
        intro a ha
        rcases mem_append.mp ha with ha | ha
        · exact hBefore a ha
        · rw [mem_singleton.mp ha]
          exact hNear
      have hList' : dir.list ns = (as ++ [n]) ++ bs := by
        simp [hList]
      rw [hIndexed.along_eq hList]
      cases bs with
      | nil =>
        rcases hEnd with ⟨m, hm, hPassed'⟩
        rw [← mem_list dir, hList', append_nil] at hm
        exact absurd rfl ((hBefore' m hm).trans hPassed').ne
      | cons b bs =>
        simp only [length_cons] at hFuel
        exact ih hList' hBefore' (by omega)

/-
  The functions that find siblings split the list at an index
  that is not there.
-/
theorem siblingsFind_spec (hIndexed : Indexed h e ns)
    (hNew : ∀ m ∈ ns, (h.node m).idx ≠ idx) (hBelow : ∃ m ∈ ns, (h.node m).idx < idx)
    (hAbove : ∃ m ∈ ns, idx < (h.node m).idx) :
    ∃ as a b bs, ns = as ++ a :: b :: bs ∧
      siblingsFind h e idx = some (some a, some b) ∧
      (∀ m ∈ as ++ [a], (h.node m).idx < idx) ∧ ∀ m ∈ b :: bs, idx < (h.node m).idx := by
  have hNonempty : ns ≠ [] := by
    rintro rfl
    rcases hBelow with ⟨m, hm, -⟩
    simp at hm
  rcases findParmsGet_spec idx hIndexed hNonempty with ⟨n, dir, hParms, as, bs, hList, hBefore⟩
  have hEnd : ∃ m ∈ ns, dir.Passed idx (h.node m).idx := by
    cases dir with
    | forward => exact hAbove
    | backward => exact hBelow
  rcases passFrom_spec hIndexed hList hBefore hNew hEnd
      (hIndexed.length_lt hList) with ⟨as, m, bs, hPass, hSplit, hFront, hBack⟩
  have hMem : m ∈ ns := by
    rw [← mem_list dir, hSplit]
    simp
  unfold siblingsFind
  simp only [hParms, hPass, Heap.read_of_mem (hIndexed.live m hMem), bind_eq_bind, bind_some]
  cases dir with
  | forward =>
    have hNs : ns = as ++ m :: bs := hSplit
    rcases eq_nil_or_concat as with rfl | ⟨as, a, rfl⟩
    · rcases hBelow with ⟨k, hk, hLess⟩
      rw [hNs] at hk
      have hMore : idx < (h.node k).idx := hBack k hk
      omega
    · rw [concat_eq_append] at hNs hFront
      have hPrev : (h.node m).prev = some a := by
        have hLinked := hIndexed.linked
        rw [hNs] at hLinked
        have hEq := hLinked.prev_eq
        simpa using hEq
      refine ⟨as, a, m, bs, by simp [hNs], by rw [hPrev], hFront, hBack⟩
  | backward =>
    have hNs : ns = bs.reverse ++ m :: as.reverse := by
      have hReverse := congrArg List.reverse (show ns.reverse = as ++ m :: bs from hSplit)
      simpa using hReverse
    have hNext : (h.node m).next = as.reverse.head? := by
      have hLinked := hIndexed.linked
      rw [hNs] at hLinked
      exact hLinked.next_eq
    rcases hRest : as.reverse with - | ⟨b, rest⟩
    · rcases hAbove with ⟨k, hk, hMore⟩
      rw [hNs, hRest] at hk
      have hLess : (h.node k).idx < idx := by
        apply hBack k
        simpa [or_comm] using hk
      omega
    · rw [hRest] at hNs hNext
      refine ⟨bs.reverse, m, b, rest, hNs, by rw [hNext]; rfl, ?_, ?_⟩
      · intro k hk
        apply hBack k
        simpa [or_comm] using hk
      · intro k hk
        apply hFront k
        rw [← hRest] at hk
        simpa using hk

/-
  What an insertion between `as` and `bs` does to the other
  nodes.
-/
def LinksNew (h h' : Nodes N α) (as bs : List N) (n : N) : Prop :=
  ∀ m, m ≠ n → h'.node m =
    { h.node m with
      next := if some m = as.getLast? then some n
        else (h.node m).next
      prev := if some m = bs.head? then some n
        else (h.node m).prev }

/- An insertion at the place where the index belongs. -/
theorem Indexed.insert (as bs : List N) {val : α}
    (hIndexed : Indexed h e (as ++ bs)) (hFresh : n ∉ h.live)
    (hLive : h'.live = Insert.insert n h.live)
    (hNode : h'.node n = ⟨bs.head?, as.getLast?, idx, val⟩)
    (hOld : LinksNew h h' as bs n) (hBelow : ∀ m ∈ as, (h.node m).idx < idx)
    (hAbove : ∀ m ∈ bs, idx < (h.node m).idx) :
    Indexed h' ⟨(as ++ n :: bs).head?, (as ++ n :: bs).getLast?, some n⟩ (as ++ n :: bs) := by
  have hNew : n ∉ as ++ bs := fun hMem => hFresh (hIndexed.live n hMem)
  have hApart : ∀ m ∈ as ++ bs, m ≠ n := by
    rintro m hm rfl
    exact hNew hm
  have hIdx : ∀ m ∈ as ++ bs, (h'.node m).idx = (h.node m).idx := by
    intro m hm
    rw [hOld m (hApart m hm)]
  refine ⟨?_, ?_, ?_, rfl, rfl, ?_⟩
  · apply hIndexed.linked.insert hNew
    · simp only [hNode]
    · simp only [hNode]
    · intro m hm
      simp only [hOld m (hApart m hm)]
    · intro m hm
      simp only [hOld m (hApart m hm)]
  · intro m hm
    rw [hLive, Finset.mem_insert]
    by_cases hSame : m = n
    · exact Or.inl hSame
    · right
      apply hIndexed.live
      simpa [hSame] using hm
  · rcases pairwise_append.mp hIndexed.ascending with ⟨hAs, hBs, hCross⟩
    have hIdxNew : (h'.node n).idx = idx := by rw [hNode]
    rw [pairwise_append, pairwise_cons]
    refine ⟨hAs.imp_of_mem ?_, ⟨?_, hBs.imp_of_mem ?_⟩, ?_⟩
    · intro a b ha hb hLess
      rw [hIdx a (by simp [ha]), hIdx b (by simp [hb])]
      exact hLess
    · intro b hb
      rw [hIdxNew, hIdx b (by simp [hb])]
      exact hAbove b hb
    · intro a b ha hb hLess
      rw [hIdx a (by simp [ha]), hIdx b (by simp [hb])]
      exact hLess
    · intro a ha b hb
      rw [hIdx a (by simp [ha])]
      rcases mem_cons.mp hb with rfl | hb
      · rw [hIdxNew]
        exact hBelow a ha
      · rw [hIdx b (by simp [hb])]
        exact hCross a ha b hb
  · rintro m ⟨⟩
    simp

/-
  `_row_idx_add` and `_row_cell_idx_add` insert a node at its
  place.
-/
theorem idxAdd_spec (idx : Nat) (n : N) (val : α) (hIndexed : Indexed h e ns)
    (hNew : ∀ m ∈ ns, (h.node m).idx ≠ idx) (hFresh : n ∉ h.live) :
    ∃ h' e' as bs, idxAdd h e idx n val = some (h', e') ∧
      ns = as ++ bs ∧
      Indexed h' e' (as ++ n :: bs) ∧
      h'.live = Insert.insert n h.live ∧
      h'.node n = ⟨bs.head?, as.getLast?, idx, val⟩ ∧ LinksNew h h' as bs n := by
  unfold idxAdd
  rcases eq_nil_or_concat ns with rfl | ⟨init, last, hNs⟩
  · -- The list is empty.
    rw [hIndexed.first_eq]
    have hOld : LinksNew h (h.alloc n ⟨none, none, idx, val⟩) [] [] n := by
      intro m hm
      simp [update_of_ne hm]
    have hNode : (h.alloc n ⟨none, none, idx, val⟩).node n = ⟨none, none, idx, val⟩ := by
      simp
    exact ⟨_, _, [], [], rfl, rfl, Indexed.insert [] [] hIndexed hFresh
      rfl hNode hOld (by simp) (by simp), rfl, hNode, hOld⟩
  rw [concat_eq_append] at hNs
  rcases hHead : ns.head? with - | first
  · simp [hNs] at hHead
  have hFirst := hIndexed.first_eq
  have hLast := hIndexed.last_eq
  rw [hHead] at hFirst
  rw [hNs, getLast?_concat] at hLast
  have hFirstMem := mem_of_head? hHead
  have hLastMem : last ∈ ns := by simp [hNs]
  simp only [hFirst, hLast, Heap.read_of_mem (hIndexed.live first hFirstMem),
    Heap.read_of_mem (hIndexed.live last hLastMem),
    Heap.modify_of_mem _ (hIndexed.live first hFirstMem),
    Heap.modify_of_mem _ (hIndexed.live last hLastMem), bind_eq_bind, bind_some]
  have hPairs := hIndexed.ascending
  split
  · -- In front of the first one.
    rename_i hLess
    rcases head?_eq_some_iff.mp hHead with ⟨rest, rfl⟩
    have hOld : LinksNew h ((h.set first { h.node first with prev := some n }).alloc n
      ⟨some first, none, idx, val⟩) [] (first :: rest) n := by
      intro m hm
      by_cases hSame : m = first
      · subst hSame
        simp [update_of_ne hm]
      · simp [update_of_ne hm, hSame]
    have hNode : ((h.set first { h.node first with prev := some n }).alloc n
      ⟨some first, none, idx, val⟩).node n = ⟨some first, none, idx, val⟩ := by
      simp
    refine ⟨_, _, [], first :: rest, rfl, rfl, ?_, rfl, hNode, hOld⟩
    have hDone := Indexed.insert [] (first :: rest)
      hIndexed hFresh rfl hNode hOld (by simp) (by
        intro m hm
        rcases mem_cons.mp hm with rfl | hm
        · exact hLess
        · have hMore := rel_of_pairwise_cons hPairs hm
          omega)
    have hEnd : ([] ++ n :: first :: rest).getLast? = some last := by
      rw [nil_append, getLast?_cons_cons, hNs]
      simp
    rw [hEnd] at hDone
    exact hDone
  split
  · -- Behind the last one.
    rename_i hMore
    have hEnd : ns.getLast? = some last := by simp [hNs]
    have hOld : LinksNew h ((h.set last { h.node last with next := some n }).alloc n
      ⟨none, some last, idx, val⟩) ns [] n := by
      intro m hm
      by_cases hSame : m = last
      · subst hSame
        simp [update_of_ne hm, hEnd]
      · simp [update_of_ne hm, hEnd, hSame]
    have hNode : ((h.set last { h.node last with next := some n }).alloc n
      ⟨none, some last, idx, val⟩).node n = ⟨none, some last, idx, val⟩ := by
      simp
    refine ⟨_, _, ns, [], rfl, by simp, ?_, rfl, ?_, hOld⟩
    · have hDone := Indexed.insert ns [] (by simpa using hIndexed)
        hFresh rfl (by rw [hNode, hEnd]; rfl) hOld (by
          intro m hm
          rw [hNs] at hm hPairs
          rcases mem_append.mp hm with hm | hm
          · have hLess := (pairwise_append.mp hPairs).2.2 m hm last (by simp)
            omega
          · rw [mem_singleton.mp hm]
            exact hMore) (by simp)
      have hFront : (ns ++ [n]).head? = some first := by
        rw [head?_append, hHead]
        rfl
      have hBack : (ns ++ [n]).getLast? = some n := by simp
      rw [hFront, hBack] at hDone
      exact hDone
    · rw [hNode, hEnd]
      rfl
  · -- Between two nodes.
    rename_i hFirstLess hLastMore
    have hNewFirst := hNew first hFirstMem
    have hNewLast := hNew last hLastMem
    rcases siblingsFind_spec hIndexed hNew ⟨first, hFirstMem, by omega⟩
        ⟨last, hLastMem, by omega⟩ with ⟨as, a, b, bs, hSplit, hSiblings, hBelow, hAbove⟩
    have hA : a ∈ ns := by simp [hSplit]
    have hB : b ∈ ns := by simp [hSplit]
    have hab : a ≠ b := by
      rintro rfl
      have hNodup := hIndexed.linked.nodup
      rw [hSplit, nodup_append, nodup_cons] at hNodup
      exact hNodup.2.1.1 (by simp)
    have hSplit' : ns = (as ++ [a]) ++ b :: bs := by
      simp [hSplit]
    simp only [hSiblings, bind_some, Heap.modify_of_mem _ (hIndexed.live a hA)]
    rw [Heap.modify_of_mem _ (by
      simpa using hIndexed.live b hB)]
    simp only [bind_some]
    have hOld : LinksNew h (((h.set a { h.node a with next := some n }).set b
      { (h.set a { h.node a with next := some n }).node b
        with prev := some n }).alloc n ⟨some b, some a, idx, val⟩) (as ++ [a]) (b :: bs) n := by
      intro m hm
      by_cases hma : m = a
      · subst hma
        simp [update_of_ne hm, hab]
      · by_cases hmb : m = b
        · subst hmb
          simp [update_of_ne hm, hma]
        · simp [update_of_ne hm, hma, hmb]
    have hNode : (((h.set a { h.node a with next := some n }).set b
      { (h.set a { h.node a with next := some n }).node b
        with prev := some n }).alloc n
          ⟨some b, some a, idx, val⟩).node n =
        ⟨(b :: bs).head?, (as ++ [a]).getLast?, idx, val⟩ := by
      simp
    refine ⟨_, _, as ++ [a], b :: bs, rfl, hSplit', ?_, rfl, hNode, hOld⟩
    rw [hSplit'] at hIndexed
    have hDone := hIndexed.insert (as ++ [a]) (b :: bs) hFresh
      rfl hNode hOld hBelow hAbove
    have hFront : ((as ++ [a]) ++ n :: b :: bs).head? = some first := by
      rw [hSplit, head?_append] at hHead
      rw [append_assoc, head?_append]
      simpa using hHead
    have hBack : ((as ++ [a]) ++ n :: b :: bs).getLast? = some last := by
      have hEnd : ns.getLast? = some last := by simp [hNs]
      rw [hSplit', getLast?_append] at hEnd
      rw [getLast?_append, getLast?_cons_cons]
      exact hEnd
    rw [hFront, hBack] at hDone
    exact hDone

---
-- Removal
---

/-
  What taking out the node `n` between `as` and `bs` does to
  the other nodes.
-/
def LinksRest (h h' : Nodes N α) (as bs : List N) (n : N) : Prop :=
  ∀ m, m ≠ n → h'.node m =
    { h.node m with
      next := if some m = as.getLast? then bs.head?
        else (h.node m).next
      prev := if some m = bs.head? then as.getLast?
        else (h.node m).prev }

/- Another `next`, or `prev`, of a node that may be NULL. -/
def setNext (h : Nodes N α) (n : Option N) (next : Option N) : Nodes N α :=
  match n with
  | none => h
  | some n => h.set n { h.node n with next := next }

def setPrev (h : Nodes N α) (n : Option N) (prev : Option N) : Nodes N α :=
  match n with
  | none => h
  | some n => h.set n { h.node n with prev := prev }

/- The nodes `prev` and `next` become neighbours. -/
def relinked (h : Nodes N α) (prev next : Option N) : Nodes N α :=
  setNext (setPrev h next prev) prev next

@[simp] theorem live_relinked (h : Nodes N α) (prev next : Option N) :
    (relinked h prev next).live = h.live := by
  cases prev <;> cases next <;> rfl

theorem relinked_rest (h : Nodes N α) (n : N)
    (hNodup : (as ++ bs).Nodup) : LinksRest h (relinked h as.getLast? bs.head?) as bs n := by
  intro m _
  rw [nodup_append] at hNodup
  unfold relinked setNext setPrev
  cases hPrev : as.getLast? with
  | none =>
    cases hNext : bs.head? with
    | none => simp
    | some b =>
      by_cases hmb : m = b
      · subst hmb
        simp
      · simp [hmb]
  | some a =>
    have ha := mem_of_getLast? hPrev
    cases hNext : bs.head? with
    | none =>
      by_cases hma : m = a
      · subst hma
        simp
      · simp [hma]
    | some b =>
      have hb := mem_of_head? hNext
      have hab : a ≠ b := hNodup.2.2 a ha b hb
      by_cases hma : m = a
      · subst hma
        simp [hab]
      · by_cases hmb : m = b
        · subst hmb
          simp [hma]
        · simp [hma, hmb]

/- The node between them stays as it is. -/
theorem relinked_node (h : Nodes N α) (hOut : n ∉ as ++ bs) :
    (relinked h as.getLast? bs.head?).node n = h.node n := by
  rw [mem_append, not_or] at hOut
  have hPrev : ∀ a, as.getLast? = some a → n ≠ a := by
    rintro a ha rfl
    exact hOut.1 (mem_of_getLast? ha)
  have hNext : ∀ b, bs.head? = some b → n ≠ b := by
    rintro b hb rfl
    exact hOut.2 (mem_of_head? hb)
  unfold relinked setNext setPrev
  cases hp : as.getLast? with
  | none =>
    cases hq : bs.head? with
    | none => rfl
    | some b => simp [hNext b hq]
  | some a =>
    cases hq : bs.head? with
    | none => simp [hPrev a hp]
    | some b => simp [hPrev a hp, hNext b hq]

/- The list without a node. -/
theorem Indexed.remove {e' : Ends N} (hIndexed : Indexed h e (as ++ n :: bs))
    (hLive : ∀ m ∈ h.live, m ≠ n → m ∈ h'.live) (hOld : LinksRest h h' as bs n)
    (hFirst : e'.first = (as ++ bs).head?) (hLast : e'.last = (as ++ bs).getLast?)
    (hUsed : ∀ m, e'.lastUsed = some m → m ∈ as ++ bs) : Indexed h' e' (as ++ bs) := by
  have hApart : ∀ m ∈ as ++ bs, m ≠ n := by
    have hNodup := hIndexed.linked.nodup
    rw [perm_middle.nodup_iff, nodup_cons] at hNodup
    rintro m hm rfl
    exact hNodup.1 hm
  refine ⟨?_, ?_, ?_, hFirst, hLast, hUsed⟩
  · apply hIndexed.linked.remove
    · intro m hm
      simp only [hOld m (hApart m hm)]
    · intro m hm
      simp only [hOld m (hApart m hm)]
  · intro m hm
    apply hLive m _ (hApart m hm)
    apply hIndexed.live
    rcases mem_append.mp hm with hm | hm
    · simp [hm]
    · simp [hm]
  · have hSub : (as ++ bs).Sublist (as ++ n :: bs) :=
      List.Sublist.append (List.Sublist.refl as) (sublist_cons_self n bs)
    refine (hIndexed.ascending.sublist hSub).imp_of_mem ?_
    intro a b ha hb hLess
    rw [hOld a (hApart a ha), hOld b (hApart b hb)]
    exact hLess

/- `_row_unlink` and `_cell_unlink` take a node out. -/
theorem unlink_spec (hIndexed : Indexed h e (as ++ n :: bs)) :
    ∃ h' e', unlink h e n = some (h', e') ∧
      Indexed h' e' (as ++ bs) ∧
      h'.live = h.live ∧ h'.node n = h.node n ∧ LinksRest h h' as bs n := by
  have hNodup := hIndexed.linked.nodup
  rw [perm_middle.nodup_iff, nodup_cons] at hNodup
  rcases hNodup with ⟨hOut, hNodup⟩
  have hNext : (h.node n).next = bs.head? := hIndexed.linked.next_eq
  have hPrev : (h.node n).prev = as.getLast? := hIndexed.linked.prev_eq
  -- The pointers into the list.
  have hEnds : ∀ h' : Nodes N α, LinksRest h h' as bs n →
      h'.live = h.live →
      Indexed h' ⟨if e.first = some n then (h.node n).next else e.first,
          if e.last = some n then (h.node n).prev else e.last,
          if e.lastUsed = some n then
            (h.node n).next.or (h.node n).prev
          else e.lastUsed⟩ (as ++ bs) := by
    intro h' hOld hLive
    refine hIndexed.remove (fun m hm _ => by rwa [hLive]) hOld ?_ ?_ ?_
    · rw [hIndexed.first_eq, hNext]
      cases as with
      | nil => simp
      | cons a as =>
        have hne : a ≠ n := by
          rintro rfl
          exact hOut (by simp)
        simp [hne]
    · rw [hIndexed.last_eq, hPrev]
      rcases eq_nil_or_concat bs with rfl | ⟨bs, b, rfl⟩
      · simp
      · have hne : b ≠ n := by
          rintro rfl
          exact hOut (by simp)
        simp [concat_eq_append, getLast?_cons, hne]
    · intro m hm
      dsimp only at hm
      split at hm
      · rw [hNext, hPrev] at hm
        cases bs with
        | nil =>
          rw [head?_nil, Option.none_or] at hm
          simpa using mem_of_getLast? hm
        | cons b bs =>
          rw [head?_cons, Option.some_or] at hm
          simp [← Option.some.inj hm]
      · rename_i hOther
        have hMem := hIndexed.used_mem m hm
        have hne : m ≠ n := by
          rintro rfl
          exact hOther hm
        simpa [hne] using hMem
  rw [hNext, hPrev] at hEnds
  refine ⟨relinked h as.getLast? bs.head?, _, ?_,
    hEnds _ (relinked_rest h n hNodup) (live_relinked _ _ _),
    live_relinked _ _ _, relinked_node h hOut, relinked_rest h n hNodup⟩
  unfold unlink
  simp only [Heap.read_of_mem (hIndexed.live n (by simp)), bind_eq_bind, bind_some, hNext, hPrev]
  cases hq : bs.head? with
  | none =>
    cases hp : as.getLast? with
    | none => rfl
    | some a =>
      have ha := mem_of_getLast? hp
      simp only [Heap.modify_of_mem _ (hIndexed.live a (by simp [ha])), bind_some]
      rfl
  | some b =>
    have hb := mem_of_head? hq
    have hbLive := hIndexed.live b (by simp [hb])
    cases hp : as.getLast? with
    | none =>
      simp only [Heap.modify_of_mem _ hbLive, bind_some]
      rfl
    | some a =>
      have ha := mem_of_getLast? hp
      have haLive := hIndexed.live a (by simp [ha])
      simp only [Heap.modify_of_mem _ hbLive, bind_some]
      rw [Heap.modify_of_mem _ (by simpa using haLive)]
      rfl

end Efl.Eina.Matrixsparse
