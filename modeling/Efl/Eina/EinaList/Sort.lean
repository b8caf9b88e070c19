import Efl.Lib.Bits
import Efl.Eina.EinaList.Merge
import Efl.Eina.EinaList.Search

/-
  Sorting a list.

  The runs on the stack match the one bits of the number of
  pairs, so that their number is bounded by the bits of the
  counter.

  Main declarations:
    * `mergeBits_spec`, `sortPairs_spec`
    * `rebuildPrev_spec`
-/

---
-- The Runs and the Counter
---

namespace Efl.Eina.EinaList

open Inlist (Order Sorted)

section

variable {N A D : Type} [DecidableEq N]
variable {func : D → D → Int}

/- Each round merges two runs and takes a bit away. -/
theorem mergeBits_spec {fuel rounds idx : Nat} {m : Memory N A D}
    {stack : List N} {runs : List (List N)} (hOrder : Order func) (hPiled : Piled func m stack runs)
    (hNodup : runs.flatten.Nodup) (hFuel : runs.flatten.length ≤ fuel) (hPos : 0 < idx)
    (hEnough : Bits.ones idx ≤ stack.length)
    (hRounds : Bits.ones idx ≤ rounds + 1) :
    ∃ m' stack' runs',
      mergeBits func fuel rounds idx m stack =
          some (m', stack') ∧
        Piled func m' stack' runs' ∧
        runs'.flatten.Perm runs.flatten ∧
        Relinked runs.flatten m m' ∧ stack'.length + Bits.ones idx = stack.length + 1 := by
  induction rounds generalizing idx m stack runs with
  | zero =>
    have hStep := Bits.ones_and_pred hPos
    have hDone : idx &&& (idx - 1) = 0 := by
      by_contra hMore
      have := Bits.ones_pos (Nat.pos_of_ne_zero hMore)
      omega
    refine ⟨m, stack, runs, ?_, hPiled, .refl _, .refl _ m, ?_⟩
    · unfold mergeBits
      simp only [if_pos hDone]
    · rw [hDone, Bits.ones_zero] at hStep
      omega
  | succ rounds ih =>
    have hStep := Bits.ones_and_pred hPos
    by_cases hDone : idx &&& (idx - 1) = 0
    · refine ⟨m, stack, runs, ?_, hPiled, .refl _, .refl _ m, ?_⟩
      · unfold mergeBits
        simp only [if_pos hDone]
      · rw [hDone, Bits.ones_zero] at hStep
        omega
    · have hMore := Nat.pos_of_ne_zero hDone
      have hBits := Bits.ones_pos hMore
      obtain ⟨b, a, rest, rfl⟩ : ∃ b a rest, stack = b :: a :: rest := by
        match stack, hEnough with
        | [], hEnough => simp at hEnough; omega
        | [_], hEnough => simp at hEnough; omega
        | b :: a :: rest, _ => exact ⟨b, a, rest, rfl⟩
      rcases mergeTop_spec hOrder hPiled hNodup hFuel with
        ⟨m₁, c, runs₁, hCall, hPiled₁, hPerm₁, hRelinked₁⟩
      simp only [List.length_cons] at hEnough
      rcases ih hPiled₁ (hPerm₁.nodup_iff.mpr hNodup) (hPerm₁.length_eq ▸ hFuel) hMore
        (by simp only [List.length_cons]; omega) (by omega) with
        ⟨m', stack', runs', hRest, hPiled', hPerm, hRelinked, hLength⟩
      refine ⟨m', stack', runs', ?_, hPiled', hPerm.trans hPerm₁,
        hRelinked₁.trans (hRelinked.mono fun k hMem =>
            hPerm₁.mem_iff.mp hMem), ?_⟩
      · unfold mergeBits
        simp only [if_neg hDone, mergeTop, hCall, Option.bind_eq_bind, Option.bind_some, hRest]
      · simp only [List.length_cons] at hLength ⊢
        omega

/- Two nodes in their order. -/
theorem pushPair_spec {m : Memory N A D} {a b : N} {stack : List N}
    (hOrder : Order func) (hApart : a ≠ b)
    (hRoom : stack.length < sortStackSize) :
    ∃ m' x y,
      pushPair func m a b stack = some (m', x :: stack) ∧
        Chain.Seg m'.next (some x) [x, y] ∧
        Sorted func ([x, y].map m'.data) ∧ [x, y].Perm [a, b] ∧ Relinked [a, b] m m' := by
  have hPair : ∀ x y : N, x ≠ y →
      func (m.data x) (m.data y) ≤ 0 →
      [x, y].Perm [a, b] →
      ∃ m', m' = (m.setNext x (some y)).setNext y none ∧
        Chain.Seg m'.next (some x) [x, y] ∧
        Sorted func ([x, y].map m'.data) ∧ Relinked [a, b] m m' := by
    intro x y hxy hLe hPerm
    have hMem : x ∈ [a, b] ∧ y ∈ [a, b] := ⟨hPerm.mem_iff.mp (by simp), hPerm.mem_iff.mp (by simp)⟩
    have hFirst : Relinked [a, b] m (m.setNext x (some y)) :=
      (relinked_setNext m x _).mono (by simpa using hMem.1)
    have hLink : Relinked [a, b] m ((m.setNext x (some y)).setNext y none) :=
      hFirst.trans ((relinked_setNext _ y none).mono (by simpa using hMem.2))
    refine ⟨_, rfl, ⟨rfl, ?_, ?_⟩, ?_, hLink⟩
    · simp [hxy]
    · show Memory.next _ y = none
      simp
    · rw [hLink.data]
      simp [Sorted, hLe]
  unfold pushPair push
  simp only [if_pos hRoom]
  by_cases hLess : func (m.data a) (m.data b) < 0
  · rw [if_pos hLess]
    rcases hPair a b hApart (by omega) (.refl _) with ⟨m', rfl, hSeg, hSorted, hRelinked⟩
    exact ⟨_, a, b, rfl, hSeg, hSorted, .refl _, hRelinked⟩
  · rw [if_neg hLess]
    have hFlip' := hOrder.flip (m.data a) (m.data b)
    rcases hPair b a hApart.symm (by omega) (.swap a b []) with ⟨m', rfl, hSeg, hSorted, hRelinked⟩
    exact ⟨_, b, a, rfl, hSeg, hSorted, .swap a b [], hRelinked⟩

/-
  With `n` pairs behind, the stack has a run for each one bit
  of `n`.
-/
theorem sortPairs_spec {fuel rounds n : Nat} {m : Memory N A D} {tail : Option N} {stack : List N}
    {runs : List (List N)} {rest : List N} (hOrder : Order func)
    (hPiled : Piled func m stack runs) (hTail : Chain.Seg m.next tail rest)
    (hNodup : (runs.flatten ++ rest).Nodup) (hFuel : (runs.flatten ++ rest).length ≤ fuel)
    (hStack : stack.length = Bits.ones n) (hPairs : 2 * n ≤ runs.flatten.length)
    (hFits : 2 * n + rest.length < uintSize)
    (hRounds : rest.length ≤ rounds) :
    ∃ m' stack' runs',
      sortPairs func fuel rounds m n tail stack =
          some (m', stack') ∧
        Piled func m' stack' runs' ∧
        runs'.flatten.Perm (runs.flatten ++ rest) ∧ Relinked (runs.flatten ++ rest) m m' := by
  induction rounds generalizing n m tail stack runs rest with
  | zero =>
    obtain rfl : rest = [] := List.eq_nil_of_length_eq_zero (by omega)
    obtain rfl : tail = none := hTail
    exact ⟨m, stack, runs, by unfold sortPairs; rfl, hPiled, by simp, .refl _ m⟩
  | succ rounds ih =>
    have hRoom : ∀ a as, rest = a :: as → stack.length < sortStackSize := by
      rintro a as rfl
      have hBits := Bits.ones_le (show n < 2 ^ 31 by
        simp only [uintSize, List.length_cons] at hFits
        omega)
      rw [hStack, sortStackSize]
      omega
    rcases rest with _ | ⟨a, _ | ⟨b, rest⟩⟩
    case nil =>
      obtain rfl : tail = none := hTail
      exact ⟨m, stack, runs, by unfold sortPairs; rfl, hPiled, by simp, .refl _ m⟩
    case cons.nil =>
      obtain rfl := hTail.1
      have hEnd : m.next a = none := hTail.2
      refine ⟨m, a :: stack, [a] :: runs, ?_, .cons ⟨⟨rfl, hEnd⟩,
        List.pairwise_singleton _ _⟩ hPiled, ?_, .refl _ m⟩
      · unfold sortPairs
        simp [hEnd, push, hRoom a [] rfl]
      · exact List.perm_append_comm
    case cons.cons =>
      obtain rfl := hTail.1
      have hNext : m.next a = some b := hTail.2.1
      have hRest : Chain.Seg m.next (m.next b) rest := hTail.2.2
      have hSplit := List.nodup_append.mp hNodup
      have hTwo := List.nodup_cons.mp hSplit.2.1
      have hApart : a ≠ b := by
        rintro rfl
        exact hTwo.1 (by simp)
      rcases pushPair_spec hOrder hApart (hRoom a (b :: rest) rfl) with
        ⟨m₁, x, y, hPush, hSeg, hSorted, hPair, hLink⟩
      have hPiled₁ : Piled func m₁ (x :: stack) ([x, y] :: runs) := by
        refine .cons ⟨hSeg, hSorted⟩ (hPiled.relinked hLink ?_)
        intro k hMem hIn
        exact hSplit.2.2 k hMem k (by simp at hIn ⊢; tauto) rfl
      have hPerm₁ : ([x, y] :: runs).flatten.Perm ([a, b] ++ runs.flatten) := hPair.append_right _
      have hAll : ([a, b] ++ runs.flatten ++ rest).Perm (runs.flatten ++ a :: b :: rest) := by
        rw [List.append_assoc]
        exact List.perm_append_comm_assoc _ _ _
      have hNodupAll := hAll.nodup_iff.mpr hNodup
      have hRuns := (List.nodup_append.mp hNodupAll).1
      simp only [List.length_append, List.length_cons] at hFuel hFits hRounds
      have hLength := hPerm₁.length_eq
      simp only [List.length_append, List.length_cons, List.length_nil] at hLength
      have hOnes := Bits.ones_succ n
      have hSelf := Bits.ones_le_self n
      have hBit : 0 < Bits.ones (n + 1) := Bits.ones_pos (Nat.succ_pos n)
      have hXor : 0 < (n + 1) ^^^ n := by
        apply Nat.pos_of_ne_zero
        intro hZero
        have hSame := Nat.xor_eq_zero_iff.mp hZero
        omega
      rcases mergeBits_spec hOrder hPiled₁ (hPerm₁.nodup_iff.mpr hRuns)
        (show _ ≤ fuel by omega) hXor (by simp only [List.length_cons]; omega)
        (show _ ≤ fuel + 1 by omega) with
        ⟨m₂, stack₂, runs₂, hMerge, hPiled₂, hPerm₂, hLink₂, hLength₂⟩
      have hPermRuns := hPerm₂.trans hPerm₁
      have hPermAll := (hPermRuns.append_right rest).trans hAll
      have hLengthRuns := hPermRuns.length_eq
      have hLengthAll := hPermAll.length_eq
      simp only [List.length_append, List.length_cons,
        List.length_nil] at hLengthRuns hLengthAll hLength₂
      have hOut : ∀ k ∈ rest, k ∉ [a, b] ++ runs.flatten := by
        intro k hMem hIn
        exact (List.nodup_append.mp hNodupAll).2.2 k hIn k hMem rfl
      have hRest₁ := hLink.seg hRest fun k hMem hIn =>
        hOut k hMem (List.mem_append_left _ hIn)
      have hRest₂ := hLink₂.seg hRest₁ fun k hMem hIn =>
        hOut k hMem (hPerm₁.mem_iff.mp hIn)
      rcases ih hPiled₂ hRest₂ (hPermAll.nodup_iff.mpr hNodup) (by rw [List.length_append]; omega)
        (show stack₂.length = Bits.ones (n + 1) by omega) (by omega) (by omega) (by omega) with
        ⟨m', stack', runs', hCall, hPiled', hPerm', hLink'⟩
      refine ⟨m', stack', runs', ?_, hPiled', hPerm'.trans hPermAll, ?_⟩
      · unfold sortPairs
        simp only [hNext, hPush, Option.bind_eq_bind, Option.bind_some, hMerge, hCall]
      · refine (hLink.mono ?_).trans ((hLink₂.mono ?_).trans (hLink'.mono ?_))
        · intro k hMem
          exact hAll.mem_iff.mp (by simp at hMem ⊢; tauto)
        · intro k hMem
          exact hAll.mem_iff.mp (List.mem_append_left _ (hPerm₁.mem_iff.mp hMem))
        · intro k hMem
          exact hPermAll.mem_iff.mp hMem

end

---
-- The whole List
---

variable {N A D : Type}
variable {func : D → D → Int}

/- The node at a position inside of the list. -/
theorem nthList_spec {m : Memory N A D} {list : N} {a : A} {ns : List N}
    {n : Nat} (hHolds : Holds m (some list) a ns)
    (hIn : n < ns.length) : nthList m (some list) n = some ns[n]? := by
  have hFits := hHolds.fits
  have hCount := hHolds.count_eq
  have hFirst : ns[0]? = some list := by
    rw [← List.head?_eq_getElem?]
    exact hHolds.head.symm
  have hInside : ¬ (ns.length + uintSize - 1) % uintSize < n := by
    rw [show ns.length + uintSize - 1 = ns.length - 1 +
      uintSize by omega, Nat.add_mod_right, Nat.mod_eq_of_lt (by omega)]
    omega
  unfold nthList
  simp only [hCount, if_neg hInside]
  split
  · obtain ⟨l, hLast⟩ : ∃ l, ns[ns.length - 1]? = some l := ⟨_, List.getElem?_eq_getElem (by omega)⟩
    have hTail : m.last list = l := by
      apply hHolds.last_eq
      rw [List.getLast?_eq_getElem?, hLast]
    rcases walk_prev (k := ns.length - 1 - n) hHolds.linked hLast (by omega) with ⟨l', hWalk, hEnd⟩
    rw [hTail, hWalk, ← hEnd,
      show ns.length - 1 - (ns.length - 1 - n) = n by omega]
    simp [hIn]
  · rcases walk_next (k := n) hHolds.linked hFirst (by omega) with ⟨l', hWalk, hEnd⟩
    rw [hWalk, ← hEnd, Nat.zero_add]
    simp [hIn]

variable [DecidableEq N]

/- The links back follow the links forward. -/
theorem rebuildPrev_spec {fuel : Nat} {m : Memory N A D} {list : Option N}
    {ns : List N} (prev : Option N) (hSeg : Chain.Seg m.next list ns) (hNodup : ns.Nodup)
    (hFuel : ns.length ≤ fuel) :
    ∃ m', rebuildPrev fuel m prev list =
        some (m', ns.getLast?.or prev) ∧
      DList.Seg m'.next m'.prev prev ns none ∧
      m'.next = m.next ∧ m'.data = m.data ∧
      m'.owner = m.owner ∧ m'.accounting = m.accounting ∧ ∀ k, k ∉ ns → m'.prev k = m.prev k := by
  induction ns generalizing fuel m prev list with
  | nil =>
    obtain rfl : list = none := hSeg
    exact ⟨m, by unfold rebuildPrev; simp, trivial, rfl, rfl,
      rfl, rfl, fun _ _ => rfl⟩
  | cons n ns ih =>
    obtain rfl := hSeg.1
    rcases List.nodup_cons.mp hNodup with ⟨hOut, hRest⟩
    have hNext : (m.setPrev n prev).next = m.next := by
      funext k
      simp
    cases fuel with
    | zero => simp at hFuel
    | succ fuel =>
      rcases @ih fuel (m.setPrev n prev) (m.next n) (some n)
        (by rw [hNext]; exact hSeg.2) hRest (by simpa using hFuel) with
        ⟨m', hCall, hBack, hNext', hData, hOwner, hAccounting, hKeep⟩
      refine ⟨m', ?_, ⟨?_, ?_, hBack⟩, hNext'.trans hNext, ?_, ?_, hAccounting, ?_⟩
      · unfold rebuildPrev
        simp only [hNext, hCall, List.getLast?_cons]
        cases ns.getLast? <;> rfl
      · rw [hKeep n hOut]
        simp
      · rw [hNext', hNext, hSeg.2.head]
        simp
      · rw [hData]
        funext k
        simp
      · rw [hOwner]
        funext k
        simp
      · intro k hMem
        simp only [List.mem_cons, not_or] at hMem
        rw [hKeep k hMem.2]
        simp [hMem.1]

omit [DecidableEq N] in
/- The links forward alone -/
theorem chain_of_seg {next prev : N → Option N} {p : Option N}
    {ns : List N} (hSeg : DList.Seg next prev p ns none) : Chain.Seg next ns.head? ns := by
  induction ns generalizing p with
  | nil => rfl
  | cons n ns ih =>
    refine ⟨rfl, ?_⟩
    rw [hSeg.2.1, Option.or_none]
    exact ih hSeg.2.2

/- A chain of nodes is sorted and linked in both directions. -/
theorem sortChain_spec {m : Memory N A D} {fuel : Nat} {first : N}
    {ns : List N} (hOrder : Order func)
    (hSeg : Chain.Seg m.next (some first) ns) (hNodup : ns.Nodup)
    (hFuel : ns.length ≤ fuel) (hFits : ns.length < uintSize) :
    ∃ m' list tail sorted,
      sortChain m fuel func first = some (m', list, some tail) ∧
        sorted.Perm ns ∧
        sorted.head? = some list ∧
        sorted.getLast? = some tail ∧
        DList.Seg m'.next m'.prev none sorted none ∧
        Sorted func (sorted.map m.data) ∧
        m'.data = m.data ∧ m'.owner = m.owner ∧
        m'.accounting = m.accounting ∧
        ∀ k, k ∉ ns → m'.next k = m.next k ∧ m'.prev k = m.prev k := by
  have hEmpty : Piled func m [] [] := .nil
  rcases sortPairs_spec hOrder hEmpty hSeg (n := 0)
    (by simpa using hNodup) (by simpa using hFuel) (by simp)
    (by simp) (by simpa using hFits) hFuel with ⟨m₁, stack, runs, hPairs, hPiled, hPerm, hLink⟩
  simp only [List.flatten_nil, List.nil_append] at hPerm hLink
  obtain ⟨b, stack, rfl⟩ : ∃ b rest, stack = b :: rest := by
    cases stack with
    | cons b rest => exact ⟨b, rest, rfl⟩
    | nil =>
      cases hPiled
      have hNil := hPerm.symm.eq_nil
      rw [hNil] at hSeg
      exact nomatch hSeg
  rcases mergeAll_spec hOrder hPiled (hPerm.nodup_iff.mpr hNodup) (hPerm.length_eq ▸ hFuel) with
    ⟨m₂, list, run, hMerge, hRun, hSorted, hPerm₂, hLink₂⟩
  have hPermRun := hPerm₂.trans hPerm
  have hNodupRun := hPermRun.nodup_iff.mpr hNodup
  rcases rebuildPrev_spec none hRun hNodupRun (hPermRun.length_eq ▸ hFuel) with
    ⟨m₃, hRebuild, hBack, hNext, hData, hOwner, hAccounting, hKeep⟩
  have hData₂ : m₂.data = m.data := hLink₂.data.trans hLink.data
  obtain ⟨tail, hTail⟩ : ∃ tail, run.getLast? = some tail := by
    cases run with
    | nil => exact nomatch hRun
    | cons n run => exact ⟨_, List.getLast?_cons⟩
  refine ⟨m₃, list, tail, run, ?_, hPermRun, hRun.head.symm, hTail,
    hBack, hData₂ ▸ hSorted, hData.trans hData₂, hOwner.trans (hLink₂.owner.trans hLink.owner),
    hAccounting.trans (hLink₂.accounting.trans hLink.accounting), ?_⟩
  · simp only [sortChain, hPairs, Option.bind_eq_bind,
      Option.bind_some, hMerge, hRebuild, hTail, Option.some_or]
  · intro k hOut
    have hOut₁ : k ∉ runs.flatten := fun hMem => hOut (hPerm.mem_iff.mp hMem)
    have hOut₂ : k ∉ run := fun hMem => hOut (hPermRun.mem_iff.mp hMem)
    constructor
    · rw [hNext, hLink₂.next k hOut₁, hLink.next k hOut]
    · rw [hKeep k hOut₂, hLink₂.prev, hLink.prev]

/- How many elements are sorted. -/
def sortedCount (limit count : Nat) : Nat :=
  if limit = 0 ∨ count < limit then count else limit

/-
  The first elements become a sorted permutation of them, the
  others stay where they are, and all links, the count and
  the last node are right.  The merge stack suffices.
-/
theorem sort_correct [DecidableEq A]
    {m : Memory N A D} {list : Option N} {a : A}
    {ns : List N} {fuel : Nat} (hHolds : Holds m list a ns)
    (hOrder : Order func) (hFuel : ns.length ≤ fuel) (limit : Nat) :
    ∃ m' list' sorted,
      sort m fuel func list limit = some (m', list') ∧
        Holds m' list' a
          (sorted ++ ns.drop (sortedCount limit ns.length)) ∧
        sorted.Perm (ns.take (sortedCount limit ns.length)) ∧
        Sorted func (sorted.map m'.data) ∧
        m'.data = m.data := by
  cases list with
  | none =>
    obtain rfl : ns = [] := by
      simpa using hHolds.head.symm
    exact ⟨m, none, [], rfl, by simpa using hHolds, by simp,
      List.Pairwise.nil, rfl⟩
  | some first =>
    have hFits := hHolds.fits
    have hCount := hHolds.count_eq
    have hHead := hHolds.head
    have hPos : 0 < ns.length := by
      cases ns with
      | nil => exact nomatch hHead
      | cons n ns => simp
    obtain ⟨k, hk⟩ :
        ∃ k, k = sortedCount limit ns.length := ⟨_, rfl⟩
    have hWithin : 0 < k ∧ k ≤ ns.length := by
      unfold sortedCount at hk
      split at hk <;> omega
    rw [← hk]
    unfold sort
    simp only [hCount]
    rw [show (if limit = 0 ∨ ns.length < limit then ns.length
      else limit) = k from hk.symm]
    by_cases hAll : k = ns.length
    · have hSeg := chain_of_seg hHolds.linked.seg
      rw [← hHead] at hSeg
      rcases sortChain_spec hOrder hSeg hHolds.linked.nodup
        hFuel hFits with
        ⟨m₁, l, tail, sorted, hCall, hPerm, hFirst, hLast,
          hLinks, hSorted, hData, hOwner, hAccounting, -⟩
      rw [hAll, List.take_length, List.drop_length]
      refine ⟨m₁.setLast (m₁.owner l) tail, some l, sorted, ?_,
        ?_, hPerm, ?_, hData⟩
      · rw [if_neg (by simp)]
        simp only [Option.bind_eq_bind, Option.bind_some, hCall]
      · have hOwned : ∀ n ∈ sorted, m₁.owner n = a := by
          intro n hMem
          rw [hOwner]
          exact hHolds.owner n (hPerm.mem_iff.mp hMem)
        have hList := hOwned l (List.mem_of_head? hFirst)
        rw [List.append_nil]
        refine ⟨⟨hFirst.symm, ⟨hPerm.nodup_iff.mpr
          hHolds.linked.nodup, hLinks⟩, hOwned, ?_, ?_⟩, ?_⟩
        · intro n hEnd
          rw [hList]
          simpa using Option.some.inj (hLast.symm.trans hEnd)
        · intro hSome
          simp only [Memory.accounting_setLast_count]
          rw [hAccounting, hPerm.length_eq]
          exact hHolds.count (by rintro rfl; simp at hPos)
        · rw [hPerm.length_eq]
          exact hFits
      · rw [← hData] at hSorted
        exact hSorted
    · obtain ⟨u, hU⟩ : ∃ u, ns[k]? = some u :=
        ⟨_, List.getElem?_eq_getElem (by omega)⟩
      obtain ⟨p, hP⟩ : ∃ p, ns[k - 1]? = some p :=
        ⟨_, List.getElem?_eq_getElem (by omega)⟩
      have hPrev : m.prev u = some p := by
        rw [← hP]
        apply hHolds.linked.prev_get
        rw [show k - 1 + 1 = k by omega, hU]
      have hParts := hHolds.linked
      rw [← List.take_append_drop k ns] at hParts
      have hEnd : (ns.take k).getLast? = some p := by
        rw [List.getLast?_take, if_neg (by omega), hP]
        rfl
      have hStart : (ns.drop k).head? = some u := by
        rw [List.head?_drop, hU]
      rcases List.nodup_append.mp hParts.nodup with
        ⟨hNodup, hNodupRest, hApart⟩
      rcases DList.seg_append.mp hParts.seg with ⟨hSegFirst, hSegRest⟩
      -- the cut in front of `u`
      have hCut : DList.Seg (m.setNext p none).next
          (m.setNext p none).prev none (ns.take k) none := by
        apply hSegFirst.setNext hNodup
        · intro n hMem
          simp [hEnd]
        · intro n hMem
          simp
      have hChain := chain_of_seg hCut
      rw [List.head?_take, if_neg (by omega), ← hHead] at hChain
      have hLength : (ns.take k).length ≤ ns.length := by
        simp
      rcases sortChain_spec hOrder hChain hNodup
        (hLength.trans hFuel) (by omega) with
        ⟨m₁, l, tail, sorted, hCall, hPerm, hFirst, hLast,
          hLinks, hSorted, hData, hOwner, hAccounting, hKeep⟩
      have hMemP : p ∈ ns.take k :=
        List.mem_of_getLast? hEnd
      have hMemU : u ∈ ns.drop k :=
        List.mem_of_head? hStart
      have hMemTail : tail ∈ ns.take k :=
        hPerm.mem_iff.mp (List.mem_of_getLast? hLast)
      have hRest : ∀ n ∈ ns.drop k,
          m₁.next n = m.next n ∧ m₁.prev n = m.prev n := by
        intro n hMem
        have hOut : n ∉ ns.take k :=
          fun hIn => hApart n hIn n hMem rfl
        have hNotP : n ≠ p := fun h => hOut (h ▸ hMemP)
        rcases hKeep n hOut with ⟨hNext, hBack⟩
        rw [hNext, hBack]
        simp [hNotP]
      have hDataAll : m₁.data = m.data := by
        rw [hData]
        funext n
        simp
      have hOwnerAll : m₁.owner = m.owner := by
        rw [hOwner]
        funext n
        simp
      have hPermAll : (sorted ++ ns.drop k).Perm ns := by
        have hBoth := hPerm.append_right (ns.drop k)
        rwa [List.take_append_drop] at hBoth
      refine ⟨(m₁.setNext tail (some u)).setPrev u (some tail),
        some l, sorted, ?_, ?_, hPerm, ?_, ?_⟩
      · rw [if_pos hAll, nthList_spec hHolds (by omega), hU]
        simp only [Option.bind_eq_bind, Option.bind_some,
          hPrev, Option.map_some, hCall]
      · refine ⟨⟨?_, ⟨hPermAll.nodup_iff.mpr
          hHolds.linked.nodup, ?_⟩, ?_, ?_, ?_⟩, ?_⟩
        · rw [List.head?_append, hFirst]
          rfl
        · rw [DList.seg_append, hStart, hLast]
          constructor
          · apply hLinks.setNext (hPerm.nodup_iff.mpr hNodup)
            · intro n hMem
              simp [hLast]
            · intro n hMem
              have hNotU : n ≠ u := by
                rintro rfl
                exact hApart n (hPerm.mem_iff.mp hMem) n hMemU
                  rfl
              simp [hNotU]
          · apply hSegRest.setPrev hNodupRest
            · intro n hMem
              have hNotTail : n ≠ tail := by
                rintro rfl
                exact hApart n hMemTail n hMem rfl
              simp [hNotTail, (hRest n hMem).1]
            · intro n hMem
              simp [hStart, (hRest n hMem).2]
        · intro n hMem
          simp only [Memory.owner_setPrev, Memory.owner_setNext]
          rw [hOwnerAll]
          exact hHolds.owner n (hPermAll.mem_iff.mp hMem)
        · intro n hEndAll
          simp only [Memory.accounting_setPrev,
            Memory.accounting_setNext]
          rw [hAccounting]
          apply hHolds.last
          rw [← hEndAll, List.getLast?_append,
            List.getLast?_drop, if_neg (by omega)]
          cases hNs : ns.getLast? with
          | none =>
            rw [List.getLast?_eq_none_iff] at hNs
            simp [hNs] at hPos
          | some n => rfl
        · intro _
          simp only [Memory.accounting_setPrev,
            Memory.accounting_setNext]
          rw [hAccounting, hPermAll.length_eq]
          exact hHolds.count (by rintro rfl; simp at hPos)
        · rw [hPermAll.length_eq]
          exact hFits
      · have hKept : ((m₁.setNext tail (some u)).setPrev u
            (some tail)).data = m₁.data := by
          funext n
          simp
        rw [hKept, hData]
        exact hSorted
      · rw [← hDataAll]
        funext n
        simp

/- The nodes 0 and 1, in the wrong order. -/
theorem sort_correct_sample :
    ∃ m' list' sorted,
      sort (pairMemory 5 3) 2 Inlist.compareNat (some 0) 0 =
          some (m', list') ∧
        Holds m' list' () (sorted ++ [0, 1].drop (sortedCount 0 2)) ∧
        sorted.Perm ([0, 1].take (sortedCount 0 2)) ∧
        Sorted Inlist.compareNat (sorted.map m'.data) ∧
        m'.data = (pairMemory 5 3).data :=
  sort_correct (holds_pairMemory 5 3) Inlist.order_compareNat
    (by decide) 0

end Efl.Eina.EinaList
