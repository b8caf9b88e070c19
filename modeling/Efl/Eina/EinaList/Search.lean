import Efl.Eina.EinaList.Contents
import Efl.Eina.Inlist.SortedState

/-
  Searches and insertions in sorted lists.

  The cursor of the search is the node at a position, so that
  the rules for binary searches apply.  What the search stops
  at is a neighbour of the place of new data.

  Main declarations:
    * `Near`
    * `searchLoop_spec`
    * `searchSortedNearList_spec`
-/

---
-- The Cursor
---

namespace Efl.Eina.EinaList

open Inlist (Order Sorted)

section

variable {N A D : Type}
variable {m : Memory N A D} {ns : List N}

section

variable (hLinked : DList.Linked m.next m.prev ns)

include hLinked

theorem walk_next {i k : Nat} {l : N}
    (hGet : ns[i]? = some l) (hIn : i + k < ns.length) :
    ∃ l', walk m.next k l = some l' ∧ ns[i + k]? = some l' := by
  induction k generalizing i l with
  | zero => exact ⟨l, rfl, hGet⟩
  | succ k ih =>
    have hNext := List.getElem?_eq_getElem (show i + 1 < ns.length by omega)
    rcases ih hNext (by omega) with ⟨l', hWalk, hEnd⟩
    refine ⟨l', ?_, ?_⟩
    · rw [walk, hLinked.next_get hGet, hNext]
      exact hWalk
    · rw [← hEnd]
      congr 1
      omega

theorem walk_prev {i k : Nat} {l : N}
    (hGet : ns[i]? = some l) (hIn : k ≤ i) :
    ∃ l', walk m.prev k l = some l' ∧ ns[i - k]? = some l' := by
  induction k generalizing i l with
  | zero => exact ⟨l, rfl, hGet⟩
  | succ k ih =>
    rcases i with - | i
    · omega
    · have hi := (List.getElem?_eq_some_iff.mp hGet).1
      have hPrev := List.getElem?_eq_getElem (show i < ns.length by omega)
      rcases ih hPrev (by omega) with ⟨l', hWalk, hEnd⟩
      refine ⟨l', ?_, ?_⟩
      · rw [walk, hLinked.prev_get hGet, hPrev]
        exact hWalk
      · rw [← hEnd]
        congr 1
        omega

theorem moveCursor_spec {tmp cur : Nat} {l : N}
    (hGet : ns[tmp]? = some l) (hIn : cur < ns.length) :
    ∃ l', moveCursor m tmp cur l = some l' ∧ ns[cur]? = some l' := by
  unfold moveCursor
  split
  · rename_i hForward
    have hWalk := walk_next (k := cur - tmp) hLinked hGet (by omega)
    rwa [show tmp + (cur - tmp) = cur by omega] at hWalk
  · rename_i hBack
    have hWalk := walk_prev (k := tmp - cur) hLinked hGet (by omega)
    rwa [show tmp - (tmp - cur) = cur by omega] at hWalk

end

/- How the data at a position compares. -/
def probe (m : Memory N A D) (func : D → D → Int) (ns : List N) (data : D) : Nat → Int :=
  Inlist.probe func (fun i => (ns.map m.data)[i]?) data

theorem probe_eq {i : Nat} {l : N} (m : Memory N A D)
    (func : D → D → Int) (data : D) (hGet : ns[i]? = some l) :
    probe m func ns data i = func (m.data l) data := by
  apply Inlist.probe_of_get
  simp [hGet]

theorem ascending {func : D → D → Int} (hOrder : Order func)
    (hSorted : Sorted func (ns.map m.data)) (data : D) :
    Search.Ascending (probe m func ns data) ns.length := by
  have hAscending := Inlist.ascending_of_sorted (n := ns.length) data 1 hSorted hOrder (by simp)
  simp only [Nat.mul_one] at hAscending
  exact hAscending

/-
  Where the search stops: `ct` is at position `i`, and if it
  is not equal to the data then it is on the side that `cmp`
  tells and its neighbour is on the other.
-/
structure Near (m : Memory N A D) (func : D → D → Int) (ns : List N) (data : D)
    (i : Nat) (ct : N) (cmp : Int) : Prop where
  get_eq : ns[i]? = some ct
  cmp_eq : cmp = func (m.data ct) data
  below : 0 < cmp → ∀ j, j < i → probe m func ns data j < 0
  above : cmp < 0 → ∀ j, i < j → j < ns.length →
    0 < probe m func ns data j

/- The loop, from a cursor at position `cur`. -/
theorem searchLoop_spec {func : D → D → Int} {data : D}
    {lo hi fuel inf sup cur : Nat} {ct : N} (cmp : Int)
    (hLinked : DList.Linked m.next m.prev ns) (hAscending :
      Search.Ascending (probe m func ns data) ns.length) (hLo : 0 < lo) (hHi : hi < ns.length)
    (hInv : Search.Inv (probe m func ns data) lo hi inf sup cur)
    (hGet : ns[cur]? = some ct) (hCmp : sup < inf → cmp = func (m.data ct) data)
    (hFuel : sup + 1 - inf ≤ fuel) :
    ∃ i ct' cmp', searchLoop m func data fuel inf sup cur ct
        cmp = some (ct', cmp') ∧
      ns[i]? = some ct' ∧ cmp' = func (m.data ct') data ∧
      Search.Bracket (probe m func ns data) lo hi i := by
  induction fuel generalizing inf sup cur ct cmp with
  | zero =>
    have hDone : sup < inf := by omega
    refine ⟨cur, ct, cmp, ?_, hGet, hCmp hDone, hInv.stop hDone⟩
    rw [searchLoop, if_neg (by omega)]
  | succ fuel ih =>
    by_cases hMore : inf ≤ sup
    · have hLe := hInv.le_hi
      have hGe := hInv.lo_le
      obtain ⟨mid, hMid⟩ :
          ∃ mid, mid = inf + (sup - inf) / 2 := ⟨_, rfl⟩
      have hInf : inf ≤ mid := by omega
      have hSup : mid ≤ sup := by omega
      rcases moveCursor_spec hLinked hGet (show mid < ns.length by omega) with ⟨ct', hMove, hGet'⟩
      have hProbe := probe_eq m func data hGet'
      rw [searchLoop, if_pos hMore]
      simp only [← hMid, hMove, Option.bind_eq_bind, Option.bind_some]
      by_cases hZero : func (m.data ct') data = 0
      · rw [if_pos hZero]
        exact ⟨mid, ct', _, rfl, hGet', rfl, .inl (hProbe.trans hZero)⟩
      · rw [if_neg hZero]
        by_cases hNeg : func (m.data ct') data < 0
        · rw [if_pos hNeg]
          exact ih _ (hInv.right hAscending hHi hInf hSup
            (by omega)) hGet' (fun _ => rfl) (by omega)
        · rw [if_neg hNeg, if_pos (by omega)]
          exact ih _ (hInv.left hAscending hHi hSup (by omega)
            (by omega)) hGet' (fun _ => rfl) (by omega)
    · have hDone : sup < inf := by omega
      refine ⟨cur, ct, cmp, ?_, hGet, hCmp hDone, hInv.stop hDone⟩
      rw [searchLoop, if_neg hMore]

end

---
-- Sorted Lists
---

variable {N A D : Type}
variable {m : Memory N A D} {a : A} {ns : List N}
variable {func : D → D → Int} {data : D}

/- What the caller gets in `result_cmp`. -/
def wanted (wants : Bool) (cmp : Int) : Option Int :=
  if wants then some cmp else none

/- A list that is not empty has a node near the data. -/
theorem searchSortedNearList_spec {list : N} {fuel : Nat}
    (hHolds : Holds m (some list) a ns) (hOrder : Order func)
    (hSorted : Sorted func (ns.map m.data))
    (hFuel : ns.length ≤ fuel) (data : D) :
    ∃ i ct cmp, (∀ wants, searchSortedNearList m fuel func (some list)
      data wants = some (some ct, wanted wants cmp)) ∧ Near m func ns data i ct cmp := by
  have hFirst : ns[0]? = some list := by
    rw [← List.head?_eq_getElem?]
    exact hHolds.head.symm
  have hSome : 0 < ns.length := (List.getElem?_eq_some_iff.mp hFirst).1
  have hCount := hHolds.count_eq
  have hAscending := ascending (m := m) hOrder hSorted data
  by_cases hOne : ns.length = 1
  · refine ⟨0, list, func (m.data list) data, ?_, hFirst, rfl, ?_, ?_⟩
    · intro wants
      unfold searchSortedNearList
      simp only [hCount, if_pos hOne, wanted]
    · intro _ j hj
      omega
    · intro _ j hj hIn
      omega
  · obtain ⟨l, hLast⟩ : ∃ l, ns[ns.length - 1]? = some l := ⟨_, List.getElem?_eq_getElem (by omega)⟩
    have hTail : m.last list = l := by
      apply hHolds.last_eq
      rw [List.getLast?_eq_getElem?, hLast]
    have hEnd := probe_eq m func data hLast
    have hStart := probe_eq m func data hFirst
    by_cases hTailLe : func (m.data l) data ≤ 0
    · refine ⟨ns.length - 1, l, func (m.data l) data, ?_, hLast,
        rfl, ?_, ?_⟩
      · intro wants
        unfold searchSortedNearList
        simp only [hCount, if_neg hOne, hTail, if_pos hTailLe, wanted]
      · intro hPos
        omega
      · intro _ j hj hIn
        omega
    · by_cases hHeadGe : 0 ≤ func (m.data list) data
      · refine ⟨0, list, func (m.data list) data, ?_, hFirst,
          rfl, ?_, ?_⟩
        · intro wants
          unfold searchSortedNearList
          simp only [hCount, if_neg hOne, hTail, if_neg hTailLe, if_pos hHeadGe, wanted]
        · intro _ j hj
          omega
        · intro hNeg
          omega
      · obtain ⟨s, hSecond⟩ : ∃ s, ns[1]? = some s := ⟨_, List.getElem?_eq_getElem (by omega)⟩
        have hNext : m.next list = some s := by
          rw [hHolds.linked.next_get hFirst, hSecond]
        by_cases hTwo : ns.length - 2 < 1
        · have hEq : l = s := by
            rw [show ns.length - 1 = 1 by omega, hSecond] at hLast
            exact (Option.some.inj hLast).symm
          refine ⟨1, s, func (m.data s) data, ?_, hSecond, rfl, ?_, ?_⟩
          · intro wants
            unfold searchSortedNearList
            simp only [hCount, if_neg hOne, hTail, if_neg hTailLe,
              if_neg hHeadGe, hNext, Option.bind_eq_bind, Option.bind_some, if_pos hTwo]
            cases wants <;> rfl
          · intro _ j hj
            rw [show j = 0 by omega, hStart]
            omega
          · intro _ j hj hIn
            omega
        · rcases searchLoop_spec (func (m.data list) data) hHolds.linked hAscending
            Nat.one_pos (show ns.length - 2 < ns.length by omega)
            (Search.inv_start (by omega)) hSecond (by omega)
            (show ns.length - 2 + 1 - 1 ≤ fuel by omega) with
            ⟨i, ct, cmp, hLoop, hGet, hCmp, hBracket⟩
          have hProbe := probe_eq m func data hGet
          refine ⟨i, ct, cmp, ?_, hGet, hCmp, ?_, ?_⟩
          · intro wants
            unfold searchSortedNearList
            simp only [hCount, if_neg hOne, hTail, if_neg hTailLe,
              if_neg hHeadGe, hNext, Option.bind_eq_bind,
              Option.bind_some, if_neg hTwo, hLoop, wanted]
          · intro hPos j hj
            rcases hBracket with hZero | ⟨hNeg, -⟩ | ⟨-, hLeft⟩
            · omega
            · omega
            · rcases j with - | j
              · omega
              · exact hLeft _ (by omega) hj
          · intro hNeg j hj hIn
            rcases hBracket with hZero | ⟨-, hRight⟩ | ⟨hPos, -⟩
            · omega
            · by_cases hInner : j ≤ ns.length - 2
              · exact hRight j hj hInner
              · rw [show j = ns.length - 1 by omega]
                omega
            · omega

/-
  The nodes before the place of the data are not larger, the
  ones after it not smaller, and `ct` is next to it on the
  side that `cmp` tells.
-/
structure Neighbour (m : Memory N A D) (func : D → D → Int) (data : D)
    (before after : List N) (ct : N) (cmp : Int) : Prop where
  cmp_eq : cmp = func (m.data ct) data
  before_le : ∀ n ∈ before, func (m.data n) data ≤ 0
  after_ge : ∀ n ∈ after, 0 ≤ func (m.data n) data
  side : if cmp < 0 then before.getLast? = some ct
    else after.head? = some ct
  absent : cmp ≠ 0 → ∀ n ∈ before ++ after,
    func (m.data n) data ≠ 0

/- Comparisons on both sides of a position. -/
theorem Near.bounds {i : Nat} {ct : N} {cmp : Int}
    (hNear : Near m func ns data i ct cmp) (hAscending :
      Search.Ascending (probe m func ns data) ns.length)
    {j : Nat} (hIn : j < ns.length) :
    (j < i → probe m func ns data j ≤ 0) ∧
      (i < j → 0 ≤ probe m func ns data j) ∧ (cmp ≠ 0 → probe m func ns data j ≠ 0) := by
  have hi := (List.getElem?_eq_some_iff.mp hNear.get_eq).1
  have hProbe := probe_eq m func data hNear.get_eq
  have hCmp := hNear.cmp_eq
  have hBelow := hNear.below
  have hAbove := hNear.above
  refine ⟨?_, ?_, ?_⟩
  · intro hj
    by_contra hNot
    have := hAscending.pos j i (by omega) hi (by omega)
    have := hBelow (by omega) j hj
    omega
  · intro hj
    by_contra hNot
    have := hAscending.neg i j (by omega) hIn (by omega)
    have := hAbove (by omega) j hj hIn
    omega
  · intro hApart
    rcases lt_or_gt_of_ne hApart with hNeg | hPos
    · rcases Nat.lt_or_ge i j with hj | hj
      · have := hAbove hNeg j hj hIn
        omega
      · have := hAscending.neg j i hj hi (by omega)
        omega
    · rcases Nat.lt_or_ge j i with hj | hj
      · have := hBelow hPos j hj
        omega
      · have := hAscending.pos i j hj hIn (by omega)
        omega

theorem Near.neighbour {i : Nat} {ct : N} {cmp : Int}
    (hNear : Near m func ns data i ct cmp) (hAscending :
      Search.Ascending (probe m func ns data) ns.length) :
    ∃ before after, ns = before ++ after ∧ Neighbour m func data before after ct cmp := by
  have hGet := hNear.get_eq
  have hBounds := fun j hIn =>
    hNear.bounds hAscending (j := j) hIn
  have hProbe := probe_eq m func data hGet
  have hCmp := hNear.cmp_eq
  -- the place, behind `ct` if that is smaller
  obtain ⟨k, hk⟩ :
      ∃ k, k = if cmp < 0 then i + 1 else i := ⟨_, rfl⟩
  refine ⟨ns.take k, ns.drop k, (List.take_append_drop k ns).symm, hCmp, ?_, ?_, ?_, ?_⟩
  · intro n hMem
    rcases List.mem_take_iff_getElem.mp hMem with ⟨j, hj, rfl⟩
    have hIn : j < ns.length := by omega
    rw [← probe_eq m func data (List.getElem?_eq_getElem hIn)]
    split at hk
    · by_cases hSame : j = i
      · rw [hSame]
        omega
      · exact (hBounds j hIn).1 (by omega)
    · exact (hBounds j hIn).1 (by omega)
  · intro n hMem
    rcases List.mem_drop_iff_getElem.mp hMem with ⟨j, hj, rfl⟩
    have hIn : k + j < ns.length := by omega
    rw [← probe_eq m func data (List.getElem?_eq_getElem hIn)]
    split at hk
    · exact (hBounds (k + j) hIn).2.1 (by omega)
    · by_cases hSame : k + j = i
      · rw [hSame]
        omega
      · exact (hBounds (k + j) hIn).2.1 (by omega)
  · split at hk
    · rename_i hNeg
      rw [if_pos hNeg, hk, List.getLast?_take]
      simp [hGet]
    · rename_i hNot
      rw [if_neg hNot, hk, List.head?_drop, hGet]
  · intro hApart n hMem
    rw [List.take_append_drop] at hMem
    rcases List.getElem_of_mem hMem with ⟨j, hIn, rfl⟩
    rw [← probe_eq m func data (List.getElem?_eq_getElem hIn)]
    exact (hBounds j hIn).2.2 hApart

variable [DecidableEq N] [DecidableEq A]

/- The new data goes next to its neighbour. -/
theorem sortedInsert_spec {list : N} {fuel : Nat} {alloc : Allocated N A} {n : N}
    (hHolds : Holds m (some list) a ns) (hOrder : Order func)
    (hSorted : Sorted func (ns.map m.data))
    (hFuel : ns.length ≤ fuel) (hAlloc : alloc.node = some n)
    (hNew : n ∉ ns) (data : D) :
    ∃ m' list' before after,
      sortedInsert m fuel func alloc (some list) data =
          some (m', list') ∧
        ns = before ++ after ∧
        Chained m' list' a (before ++ n :: after) ∧
        Inserted m m' n data ∧ Sorted func ((before ++ n :: after).map m'.data) := by
  rcases searchSortedNearList_spec hHolds hOrder hSorted hFuel
    data with ⟨i, ct, cmp, hSearch, hNear⟩
  rcases hNear.neighbour (ascending hOrder hSorted data) with ⟨before, after, rfl, hNeighbour⟩
  have hOld : ∀ k ∈ before ++ after, k ≠ n := by
    rintro k hMem rfl
    exact hNew hMem
  have hSortedNew : ∀ m' : Memory N A D, Inserted m m' n data →
      Sorted func ((before ++ n :: after).map m'.data) := by
    intro m' hInserted
    have hKeep : ∀ part : List N,
        (∀ k ∈ part, k ∈ before ++ after) → part.map m'.data = part.map m.data := by
      intro part hPart
      apply List.map_congr_left
      intro k hMem
      exact hInserted.data_old k (hOld k (hPart k hMem))
    rw [List.map_append, List.map_cons, hInserted.data_new,
      hKeep before (by simp +contextual), hKeep after (by simp +contextual)]
    rw [List.map_append] at hSorted
    apply hSorted.insert hOrder
    · intro x hMem
      rcases List.mem_map.mp hMem with ⟨k, hk, rfl⟩
      exact hNeighbour.before_le k hk
    · intro x hMem
      rcases List.mem_map.mp hMem with ⟨k, hk, rfl⟩
      exact hNeighbour.after_ge k hk
  have hSide := hNeighbour.side
  unfold sortedInsert
  simp only [hSearch true, wanted, if_true, Option.bind_eq_bind, Option.bind_some]
  by_cases hNeg : cmp < 0
  · rw [if_pos hNeg] at hSide ⊢
    rcases List.getLast?_eq_some_iff.mp hSide with ⟨as, rfl⟩
    rw [List.append_assoc] at hHolds hNew
    rcases appendRelativeList_spec data hHolds.toChained hAlloc hNew with
      ⟨m', hCall, hChained, hInserted⟩
    refine ⟨m', some list, as ++ [ct], after, by rw [hCall],
      rfl, ?_, hInserted, hSortedNew m' hInserted⟩
    rw [List.append_assoc]
    exact hChained
  · rw [if_neg hNeg] at hSide ⊢
    rcases List.head?_eq_some_iff.mp hSide with ⟨bs, rfl⟩
    rcases prependRelativeList_spec data hHolds.toChained hAlloc hNew with
      ⟨m', list', hCall, hChained, hInserted⟩
    exact ⟨m', some list', before, ct :: bs, by rw [hCall], rfl,
      hChained, hInserted, hSortedNew m' hInserted⟩

/-
  For a list that is sorted: the search finds equal data if
  there is any, the neighbour it reports is next to the place
  of the data, and an insertion puts the data there, if there
  is memory.
-/
theorem sorted_list_correct {list : Option N} {fuel : Nat}
    (hHolds : Holds m list a ns) (hOrder : Order func)
    (hSorted : Sorted func (ns.map m.data))
    (hFuel : ns.length ≤ fuel) (data : D) :
    (∃ found,
      searchSortedList m fuel func list data = some found ∧
        (∀ n, found = some n → n ∈ ns ∧ func (m.data n) data = 0) ∧
        (found = none → ∀ n ∈ ns, func (m.data n) data ≠ 0)) ∧
      (∃ near cmp,
        (∀ wants, searchSortedNearList m fuel func list data
          wants = some (near, wanted wants cmp)) ∧
          (near = none → ns = [] ∧ cmp = 0) ∧
          ∀ ct, near = some ct →
            ∃ before after, ns = before ++ after ∧
              Neighbour m func data before after ct cmp) ∧
      (∀ alloc n, alloc.node = some n → n ∉ ns →
        (list = none → alloc.accounting = some a) →
        ∃ m' list' before after,
          sortedInsert m fuel func alloc list data =
              some (m', list') ∧
            ns = before ++ after ∧
            Chained m' list' a (before ++ n :: after) ∧
            Inserted m m' n data ∧
            Sorted func ((before ++ n :: after).map m'.data)) ∧
      ∀ alloc, alloc.node = none →
        sortedInsert m fuel func alloc list data =
          some (m, list) := by
  cases list with
  | none =>
    obtain rfl : ns = [] := by
      simpa using hHolds.head.symm
    refine ⟨⟨none, rfl, by simp, by simp⟩,
      ⟨none, 0, fun _ => rfl, by simp, by simp⟩, ?_, ?_⟩
    · intro alloc n hNode _ hAccounting
      obtain rfl : alloc = ⟨some n, some a⟩ := by
        rw [← hNode, ← hAccounting rfl]
      rcases append_none_spec m n a data with
        ⟨m', hCall, hChained, hInserted⟩
      refine ⟨m', some n, [], [], ?_, rfl, hChained,
        hInserted, List.pairwise_singleton _ _⟩
      simp only [sortedInsert, hCall]
    · intro alloc hNode
      simp [sortedInsert, append, hNode]
  | some list =>
    rcases searchSortedNearList_spec hHolds hOrder hSorted
      hFuel data with ⟨i, ct, cmp, hSearch, hNear⟩
    have hAscending := ascending (m := m) hOrder hSorted data
    refine ⟨?_, ?_, ?_, ?_⟩
    · simp only [searchSortedList, hSearch true, wanted, if_true,
        Option.bind_eq_bind, Option.bind_some, Option.some.injEq]
      by_cases hZero : cmp = 0
      · rw [if_pos hZero]
        refine ⟨some ct, rfl, ?_, by simp⟩
        intro n hn
        obtain rfl := Option.some.inj hn
        exact ⟨List.mem_of_getElem? hNear.get_eq,
          hNear.cmp_eq.symm.trans hZero⟩
      · rw [if_neg hZero]
        refine ⟨none, rfl, by simp, ?_⟩
        intro _ n hMem
        rcases hNear.neighbour hAscending with
          ⟨before, after, rfl, hNeighbour⟩
        exact hNeighbour.absent hZero n hMem
    · refine ⟨some ct, cmp, hSearch, by simp, ?_⟩
      intro ct' hSame
      obtain rfl := Option.some.inj hSame
      exact hNear.neighbour hAscending
    · intro alloc n hNode hNew _
      exact sortedInsert_spec hHolds hOrder hSorted hFuel
        hNode hNew data
    · intro alloc hNode
      have hFails := relative_list_fails m (some list)
        (some ct) data hNode
      simp only [sortedInsert, hSearch true, wanted, if_true,
        Option.bind_eq_bind, Option.bind_some, hFails.1,
        hFails.2, ite_self]

open Inlist (compareNat order_compareNat)

/- 4 belongs between 3 and 5. -/
theorem sorted_list_correct_sample :
    let m := pairMemory 3 5
    (∃ found,
      searchSortedList m 2 compareNat (some 0) 4 = some found ∧
        (∀ n, found = some n →
          n ∈ [0, 1] ∧ compareNat (m.data n) 4 = 0) ∧
        (found = none → ∀ n ∈ [0, 1], compareNat (m.data n) 4 ≠ 0)) ∧
      (∃ near cmp, (∀ wants, searchSortedNearList m 2 compareNat
        (some 0) 4 wants = some (near, wanted wants cmp)) ∧
        (near = none → [0, 1] = [] ∧ cmp = 0) ∧ ∀ ct, near = some ct →
        ∃ before after, [0, 1] = before ++ after ∧
        Neighbour m compareNat 4 before after ct cmp) ∧
      (∀ alloc n, alloc.node = some n → n ∉ [0, 1] →
        (some 0 = none → alloc.accounting = some ()) →
        ∃ m' list' before after,
          sortedInsert m 2 compareNat alloc (some 0) 4 =
              some (m', list') ∧
            [0, 1] = before ++ after ∧
            Chained m' list' () (before ++ n :: after) ∧
            Inserted m m' n 4 ∧
            Sorted compareNat ((before ++ n :: after).map m'.data)) ∧
      ∀ alloc, alloc.node = none →
        sortedInsert m 2 compareNat alloc (some 0) 4 =
          some (m, some 0) :=
  sorted_list_correct (holds_pairMemory 3 5) order_compareNat
    (show List.Pairwise _ _ by decide) (by decide) 4

end Efl.Eina.EinaList
