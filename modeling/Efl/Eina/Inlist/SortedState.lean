import Efl.Eina.Inlist.Links
import Efl.Lib.Search

/-
  A sorted list and its jump table, under insertions.

  The table lags behind the list by at most one node, and by
  two right behind a compaction.

  Main declarations:
    * `Order`, `Sorted`
    * `Indexed`
    * `search_spec`
    * `rebuild_spec`, `stateInsert_spec`
-/

---
-- Order
---

namespace Efl.Eina.Inlist

variable {N : Type}

/- The callback compares as a total preorder does. -/
structure Order (func : N → N → Int) : Prop where
  flip : ∀ a b, func a b < 0 ↔ 0 < func b a
  trans : ∀ a b c, func a b ≤ 0 → func b c ≤ 0 → func a c ≤ 0

def Sorted (func : N → N → Int) (ns : List N) : Prop :=
  ns.Pairwise fun a b => func a b ≤ 0

/- How the nodes that are fetched compare with the item. -/
def probe (func : N → N → Int) (get : Nat → Option N) (item : N) (i : Nat) : Int :=
  match get i with
  | none => 0
  | some n => func n item

variable {i : Nat}

theorem probe_of_get {func : N → N → Int} {get : Nat → Option N}
    {n : N} (item : N) (hGet : get i = some n) : probe func get item i = func n item := by
  simp [probe, hGet]

variable {func : N → N → Int}

theorem Order.rfl (hOrder : Order func) (a : N) : func a a ≤ 0 := by
  by_contra hNot
  have := (hOrder.flip a a).mpr (by omega)
  omega

variable {ns : List N} {j : Nat} {a b : N}

theorem Sorted.le (hSorted : Sorted func ns) (hOrder : Order func)
    (hLe : i ≤ j) (hFirst : ns[i]? = some a) (hSecond : ns[j]? = some b) : func a b ≤ 0 := by
  rcases Nat.eq_or_lt_of_le hLe with rfl | hLess
  · obtain rfl : a = b := by
      rw [hFirst] at hSecond
      exact Option.some.inj hSecond
    exact hOrder.rfl a
  · rcases List.getElem?_eq_some_iff.mp hFirst with ⟨hi, rfl⟩
    rcases List.getElem?_eq_some_iff.mp hSecond with ⟨hj, rfl⟩
    exact List.pairwise_iff_getElem.mp hSorted i j hi hj hLess

variable {n : Nat}

/- Nodes that are fetched in their order. -/
theorem ascending_of_sorted (item : N) (step : Nat) (hSorted : Sorted func ns) (hOrder : Order func)
    (hIn : ∀ k, k < n → k * step < ns.length) :
    Search.Ascending (probe func (fun k => ns[k * step]?) item) n := by
  have hGet : ∀ k, k < n → ∃ a, ns[k * step]? = some a ∧
      probe func (fun k => ns[k * step]?) item k = func a item := by
    intro k hk
    have hGet := List.getElem?_eq_getElem (hIn k hk)
    exact ⟨_, hGet, by simp [probe, hGet]⟩
  constructor
  · intro i j hij hj hNeg
    rcases hGet i (by omega) with ⟨a, ha, hi⟩
    rcases hGet j hj with ⟨b, hb, hj⟩
    rw [hj] at hNeg
    rw [hi]
    by_contra hNot
    have hBack : func item a ≤ 0 := by
      have := hOrder.flip a item
      omega
    have hLe := hOrder.trans item a b hBack (hSorted.le hOrder (Nat.mul_le_mul_right _ hij) ha hb)
    have := hOrder.flip b item
    omega
  · intro i j hij hj hPos
    rcases hGet i (by omega) with ⟨a, ha, hi⟩
    rcases hGet j hj with ⟨b, hb, hj⟩
    rw [hi] at hPos
    rw [hj]
    by_contra hNot
    have := hOrder.trans a b item (hSorted.le hOrder (Nat.mul_le_mul_right _ hij) ha hb) (by omega)
    omega

variable {as bs : List N}

/- An item between smaller and larger nodes. -/
theorem Sorted.insert {item : N} (hSorted : Sorted func (as ++ bs))
    (hOrder : Order func) (hBefore : ∀ a ∈ as, func a item ≤ 0)
    (hAfter : ∀ b ∈ bs, 0 ≤ func b item) : Sorted func (as ++ item :: bs) := by
  unfold Sorted at *
  rw [List.pairwise_append] at hSorted ⊢
  rcases hSorted with ⟨hAs, hBs, hApart⟩
  refine ⟨hAs, List.pairwise_cons.mpr ⟨?_, hBs⟩, ?_⟩
  · intro b hb
    have := hOrder.flip b item
    have := hAfter b hb
    omega
  · intro a ha b hb
    rcases List.mem_cons.mp hb with rfl | hb
    · exact hBefore a ha
    · exact hApart a ha b hb

---
-- Searches
---

open List
variable {get : Nat → Option N}
variable {item : N}

/- A node with its position and its comparison. -/
structure Found (func : N → N → Int) (get : Nat → Option N) (item : N)
    (found : Nat × N × Int) : Prop where
  get_eq : get found.1 = some found.2.1
  cmp_eq : found.2.2 = func found.2.1 item

variable {found : Nat × N × Int}

theorem Found.probe_eq (hFound : Found func get item found) :
    probe func get item found.1 = found.2.2 := by
  rw [probe_of_get item hFound.get_eq, hFound.cmp_eq]

variable {fuel : Nat}

/- The search ends at the place where the item belongs. -/
theorem search_spec {fetch : Nat → N → Nat → Option N} {lo hi : Nat}
    {inf sup : Nat} (hFetch : ∀ i a j, get i = some a → j ≤ hi →
      ∃ b, fetch i a j = some b ∧ get j = some b)
    (hAscending : Search.Ascending (probe func get item) n) (hHi : hi < n)
    (hInv : Search.Inv (probe func get item) lo hi inf sup found.1)
    (hFound : Found func get item found) (hWithin : found.1 < n)
    (hFuel : sup + 1 - inf ≤ fuel) :
    ∃ found', search func item fetch fuel inf sup found =
        some found' ∧
      Found func get item found' ∧ found'.1 < n ∧
      Search.Bracket (probe func get item) lo hi found'.1 := by
  induction fuel generalizing inf sup found with
  | zero =>
    unfold search
    rw [if_pos (by omega)]
    exact ⟨found, rfl, hFound, hWithin, hInv.stop (by omega)⟩
  | succ fuel ih =>
    unfold search
    by_cases hDone : sup < inf
    · rw [if_pos hDone]
      exact ⟨found, rfl, hFound, hWithin, hInv.stop hDone⟩
    · rw [if_neg hDone]
      have hLe := hInv.le_hi
      have hInf : inf ≤ inf + (sup - inf) / 2 := by omega
      have hSup : inf + (sup - inf) / 2 ≤ sup := by omega
      rcases hFetch found.1 found.2.1
        (inf + (sup - inf) / 2) hFound.get_eq (by omega) with ⟨ct, hStep, hGet⟩
      simp only [hStep, Option.bind_eq_bind, Option.bind_some]
      have hNext : Found func get item (inf + (sup - inf) / 2, ct, func ct item) := ⟨hGet, rfl⟩
      have hProbe : probe func get item (inf + (sup - inf) / 2) = func ct item := hNext.probe_eq
      split
      · rename_i hZero
        exact ⟨_, rfl, hNext, by omega, .inl (hProbe.trans hZero)⟩
      · split
        · rename_i hNeg
          exact ih (hInv.right hAscending hHi hInf hSup
            (by rw [hProbe]; exact hNeg)) hNext (by omega) (by omega)
        · have hPos : 0 < probe func get item (inf + (sup - inf) / 2) := by
            rw [hProbe]
            omega
          split
          · rename_i hFirst
            exact ih (hInv.left hAscending hHi hSup hFirst hPos) hNext (by omega) (by omega)
          · rename_i hFirst
            exact ⟨_, rfl, hNext, by omega, .inr (.inr ⟨hPos, by omega⟩)⟩

variable {mem : Memory N}

section

variable (hLinked :
  DList.Linked (fun n => (mem n).next) (fun n => (mem n).prev) ns)

include hLinked

/- Steps in the list. -/
theorem forward_spec (hGet : ns[i]? = some a)
    (hIn : i + n < ns.length) : ∃ b, forward mem n a = some b ∧ ns[i + n]? = some b := by
  induction n generalizing i a with
  | zero => exact ⟨a, rfl, hGet⟩
  | succ n ih =>
    have hNext := hLinked.next_get hGet
    rw [getElem?_eq_getElem (by omega)] at hNext
    rw [forward, hNext]
    rw [Nat.add_comm n 1, ← Nat.add_assoc]
    exact ih (getElem?_eq_getElem (by omega)) (by omega)

theorem backward_spec (hGet : ns[i + n]? = some a) :
    ∃ b, backward mem n a = some b ∧ ns[i]? = some b := by
  induction n generalizing a with
  | zero => exact ⟨a, rfl, hGet⟩
  | succ n ih =>
    have hIn := (List.getElem?_eq_some_iff.mp hGet).1
    have hPrev := hLinked.prev_get (i := i + n) hGet
    rw [getElem?_eq_getElem (by omega)] at hPrev
    rw [backward, hPrev]
    exact ih (getElem?_eq_getElem (by omega))

theorem walk_spec (hGet : ns[i]? = some a) (hIn : j < ns.length) :
    ∃ b, walk mem i a j = some b ∧ ns[j]? = some b := by
  unfold walk
  split
  · have h := forward_spec (n := j - i) hLinked hGet (by omega)
    rwa [show i + (j - i) = j by omega] at h
  · exact backward_spec hLinked (by rwa [show j + (i - j) = i by omega])

end

---
-- The Jump Table
---

open Option Function

/- The jump table has the nodes at the multiples of its step. -/
structure Entries (state : SortedState N) (ns : List N) : Prop where
  div_pos : 1 ≤ state.jumpDiv
  limit_pos : 1 ≤ state.jumpLimit
  limit_le : state.jumpLimit ≤ jumpSize
  inserted : state.inserted = ns.length
  entry : ∀ k, k < state.jumpLimit →
    state.jumpTable k = ns[k * state.jumpDiv]?
  within : (state.jumpLimit - 1) * state.jumpDiv < ns.length

/- It also reaches close to the end of the list. -/
structure Indexed (state : SortedState N) (ns : List N) : Prop extends Entries state ns where
  lag : ns.length ≤ state.jumpLimit * state.jumpDiv + 1 ∨
    (2 * state.jumpLimit = jumpSize ∧ 2 ≤ state.jumpDiv ∧
      ns.length = state.jumpLimit * state.jumpDiv + 2)

variable {state : SortedState N} {k : Nat}

theorem Entries.lt_length (hEntries : Entries state ns)
    (hk : k < state.jumpLimit) : k * state.jumpDiv < ns.length :=
  (Nat.mul_le_mul_right _ (by omega)).trans_lt hEntries.within

theorem Entries.entry_eq (hEntries : Entries state ns)
    (hk : k < state.jumpLimit) : ∃ a, state.entry k = some a ∧ ns[k * state.jumpDiv]? = some a := by
  have hLe := hEntries.limit_le
  have hGet := getElem?_eq_getElem (hEntries.lt_length hk)
  refine ⟨_, ?_, hGet⟩
  rw [SortedState.entry, if_pos (by omega), hEntries.entry k hk, hGet]

/- Every second entry is kept. -/
theorem compact_table (state : SortedState N) (k : Nat) :
    (compact state).jumpTable k =
      if 2 * k < jumpSize then state.jumpTable (2 * k)
      else state.jumpTable k := by
  have hSteps : ∀ m k, (List.range m).foldl (fun table j =>
        update table (j + 1) (table (2 * (j + 1))))
      state.jumpTable k =
        if k ≤ m then state.jumpTable (2 * k)
        else state.jumpTable k := by
    intro m
    induction m with
    | zero =>
      intro k
      by_cases h : k = 0
      · simp [h]
      · simp [h]
    | succ m ih =>
      intro k
      rw [range_succ, foldl_append, foldl_cons, foldl_nil]
      by_cases h : k = m + 1
      · subst h
        rw [update_self, ih, if_neg (by omega), if_pos (by omega)]
      · rw [update_of_ne h, ih]
        by_cases hLe : k ≤ m
        · rw [if_pos hLe, if_pos (by omega)]
        · rw [if_neg hLe, if_neg (by omega)]
  have hTable := hSteps (jumpSize / 2 - 1) k
  unfold compact
  dsimp only
  rw [hTable]
  unfold jumpSize
  by_cases h : 2 * k < 256
  · rw [if_pos h, if_pos (by omega)]
  · rw [if_neg h, if_neg (by omega)]

/- A full table is compacted. -/
theorem compact_indexed (hEntries : Entries state ns) (hFull : state.jumpLimit = jumpSize)
    (hLength : ns.length = jumpSize * state.jumpDiv + 2) : Indexed (compact state) ns := by
  have hLimit : (compact state).jumpLimit = 128 := by
    simp [compact, hFull, jumpSize]
  have hDiv : (compact state).jumpDiv = state.jumpDiv * 2 := rfl
  have hPos := hEntries.div_pos
  unfold jumpSize at hLength
  refine ⟨⟨?_, ?_, ?_, hEntries.inserted, ?_, ?_⟩, .inr ?_⟩
  · omega
  · omega
  · rw [hLimit]
    decide
  · intro k hk
    rw [hLimit] at hk
    rw [compact_table, if_pos (by unfold jumpSize; omega),
      hEntries.entry _ (by rw [hFull]; unfold jumpSize; omega), hDiv]
    congr 1
    ring
  · rw [hLimit, hDiv]
    omega
  · rw [hLimit, hDiv]
    refine ⟨rfl, ?_, ?_⟩
    · omega
    · omega

/-
  Rebuilding the end of the table, from a node that is
  `jumpCount` behind the last entry that was looked at.
-/
theorem rebuild_spec {start jumpCount : Nat} {last : N}
    (hLinked : DList.Linked (fun n => (mem n).next) (fun n => (mem n).prev) ns)
    (hInt : (ns.length : Int) ≤ CInt.intMax) (hRoom : ns.length ≤ jumpSize * state.jumpDiv + 2)
    (hEntries : Entries state ns) (hGet : ns[i]? = some last)
    (hStart : 1 ≤ start) (hLimit : start ≤ state.jumpLimit)
    (hPos : i = (start - 1) * state.jumpDiv + jumpCount) (hCount : jumpCount ≤ state.jumpDiv)
    (hFuel : ns.length ≤ i + fuel + 1) :
    ∃ state', rebuild mem fuel state last start jumpCount = some state' ∧ Indexed state' ns := by
  induction fuel generalizing state last start jumpCount i with
  | zero =>
    have hNext := hLinked.next_get hGet
    have hIn := (List.getElem?_eq_some_iff.mp hGet).1
    rw [getElem?_eq_none (by omega)] at hNext
    have hMul := Nat.mul_le_mul_right state.jumpDiv hLimit
    have hSplit := Nat.sub_one_mul start state.jumpDiv
    have hLeast := Nat.mul_le_mul_right state.jumpDiv hStart
    refine ⟨state, by rw [rebuild, hNext], ⟨hEntries, ?_⟩⟩
    left
    omega
  | succ fuel ih =>
    have hNext := hLinked.next_get hGet
    have hMul := Nat.mul_le_mul_right state.jumpDiv hLimit
    have hSplit := Nat.sub_one_mul start state.jumpDiv
    have hLeast := Nat.mul_le_mul_right state.jumpDiv hStart
    rcases hSome : ns[i + 1]? with - | next
    · rw [hSome] at hNext
      refine ⟨state, by rw [rebuild, hNext], ⟨hEntries, ?_⟩⟩
      have := List.getElem?_eq_none_iff.mp hSome
      left
      omega
    · rw [hSome] at hNext
      have hMore := (List.getElem?_eq_some_iff.mp hSome).1
      rw [rebuild, hNext]
      dsimp only
      split
      · rename_i hOther
        exact ih hRoom hEntries hSome hStart hLimit (by omega) (by omega) (by omega)
      · rename_i hSame
        split
        · -- The table is full, and only one node is left.
          rename_i hFull
          have hLength : ns.length = jumpSize * state.jumpDiv + 2 := by
            rw [← hFull.2, hFull.1] at hRoom ⊢
            omega
          have hDone := hLinked.next_get hSome
          rw [getElem?_eq_none (by
            rw [← hFull.2, hFull.1] at hLength
            omega)] at hDone
          rw [if_neg (by
            unfold jumpSize at hLength
            omega)]
          refine ⟨compact state, ?_, compact_indexed hEntries hFull.2 hLength⟩
          unfold rebuild
          rw [hDone]
        · rename_i hFull
          have hLe := hEntries.limit_le
          rw [if_neg (by omega)]
          have hHere : i = start * state.jumpDiv := by omega
          refine ih hRoom ⟨hEntries.div_pos, ?_, ?_, hEntries.inserted,
              ?_, ?_⟩ hSome (by omega) ?_ ?_ hEntries.div_pos (by omega)
          · have := hEntries.limit_pos
            dsimp only
            split <;> omega
          · dsimp only
            split <;> omega
          · intro k hk
            dsimp only at hk ⊢
            by_cases hkStart : k = start
            · subst hkStart
              rw [update_self, ← hHere, hGet]
            · rw [update_of_ne hkStart]
              apply hEntries.entry
              split at hk <;> omega
          · dsimp only
            split
            · rename_i hEnd
              rw [hEnd, Nat.add_sub_cancel]
              omega
            · exact hEntries.within
          · dsimp only
            split <;> omega
          · rw [Nat.add_sub_cancel]
            dsimp only
            omega

variable {idx : Nat}

/- The entries that move back. -/
theorem shift_spec (mem : Memory N)
    (hEntry : ∀ k, idx ≤ k → k < idx + n →
      ∃ e, state.entry k = some e) :
    ∃ table, shift mem n idx state =
        some { state with jumpTable := table } ∧
      (∀ k e, idx ≤ k → k < idx + n →
        state.entry k = some e → table k = (mem e).prev) ∧
      ∀ k, ¬ (idx ≤ k ∧ k < idx + n) → table k = state.jumpTable k := by
  induction n generalizing idx state with
  | zero => exact ⟨state.jumpTable, rfl, by omega, fun _ _ => rfl⟩
  | succ n ih =>
    rcases hEntry idx (le_refl _) (by omega) with ⟨e, he⟩
    have hOther : ∀ k x, k ≠ idx →
        SortedState.entry { state with
          jumpTable := update state.jumpTable idx x } k = state.entry k := by
      intro k x hk
      unfold SortedState.entry
      dsimp only
      rw [update_of_ne hk]
    have hRest : ∀ k, idx + 1 ≤ k → k < idx + 1 + n →
        ∃ e', SortedState.entry { state with
          jumpTable := update state.jumpTable
            idx (mem e).prev } k = some e' := by
      intro k hLow hHigh
      rw [hOther k _ (by omega)]
      exact hEntry k (by omega) (by omega)
    rcases ih hRest with ⟨table, hShift, hIn, hOut⟩
    refine ⟨table, ?_, ?_, ?_⟩
    · rw [shift, he, bind_eq_bind, bind_some]
      exact hShift
    · intro k e' hLow hHigh he'
      by_cases hk : k = idx
      · subst hk
        rw [hOut k (by omega)]
        dsimp only
        rw [update_self]
        rw [he] at he'
        rw [some.inj he']
      · exact hIn k e' (by omega) (by omega) (by rw [hOther k _ hk]; exact he')
    · intro k hk
      rw [hOut k (by omega)]
      exact update_of_ne (by omega) ..

/- The item behind `as` is taken into the table. -/
theorem stateInsert_spec {offset : Nat} (hLinked : DList.Linked (fun n => (mem n).next)
  (fun n => (mem n).prev) (as ++ item :: bs)) (hIndexed : Indexed state (as ++ bs))
    (hInt : (state.inserted : Int) + 1 ≤ CInt.intMax)
    (hIdx : ∀ k, k < state.jumpLimit →
      ((if offset ≠ 0 then idx + 1 else idx) ≤ k ↔
        as.length ≤ k * state.jumpDiv)) :
    ∃ state', stateInsert mem state idx offset =
        some state' ∧ Indexed state' (as ++ item :: bs) := by
  have hEntries := hIndexed.toEntries
  have hInserted := hEntries.inserted
  have hLimit := hEntries.limit_pos
  have hLe := hEntries.limit_le
  have hLength : (as ++ item :: bs).length = (as ++ bs).length + 1 := by
    simp
    omega
  -- A node behind the item is one further.
  have hBehind : ∀ i, as.length ≤ i → (as ++ item :: bs)[i + 1]? = (as ++ bs)[i]? := by
    intro i hi
    rw [getElem?_append_right (by omega), getElem?_append_right hi,
      show i + 1 - as.length = i - as.length + 1 by omega, getElem?_cons_succ]
  have hBefore : ∀ i, i < as.length → (as ++ item :: bs)[i]? = (as ++ bs)[i]? := by
    intro i hi
    rw [getElem?_append_left hi, getElem?_append_left hi]
  generalize hFrom : (if offset ≠ 0 then idx + 1 else idx) = first at hIdx
  have hThere : ∀ k, first ≤ k →
      k < first + (state.jumpLimit - first) →
      ∃ e, SortedState.entry { state with
        inserted := state.inserted + 1 } k = some e := by
    intro k hLow hHigh
    rcases hEntries.entry_eq (k := k) (by omega) with ⟨a, ha, -⟩
    exact ⟨a, ha⟩
  rcases shift_spec mem hThere with ⟨table, hShift, hIn, hOut⟩
  have hTable : ∀ k, k < state.jumpLimit → table k = (as ++ item :: bs)[k * state.jumpDiv]? := by
    intro k hk
    rcases hEntries.entry_eq hk with ⟨a, ha, hGet⟩
    by_cases hFirst : first ≤ k
    · rw [hIn k a hFirst (by omega) ha]
      refine hLinked.prev_get ?_
      rw [hBehind _ ((hIdx k hk).mp hFirst), hGet]
    · have hAs : k * state.jumpDiv < as.length := by
        by_contra hNot
        exact hFirst ((hIdx k hk).mpr (by omega))
      rw [hOut k (by omega), hBefore _ hAs]
      exact hEntries.entry k hk
  have hNew : Entries
      { state with
        inserted := state.inserted + 1
        jumpTable := table } (as ++ item :: bs) :=
    { div_pos := hEntries.div_pos
      limit_pos := hLimit
      limit_le := hLe
      inserted := by rw [hLength, ← hInserted]
      entry := hTable
      within := by
        have := hEntries.within
        dsimp only
        omega }
  rcases hNew.entry_eq (k := state.jumpLimit - 3) (by dsimp only; omega) with ⟨last, hLast, hGet⟩
  have hSize : state.jumpLimit * state.jumpDiv ≤ jumpSize * state.jumpDiv :=
    Nat.mul_le_mul_right _ hLe
  have hRoom : (as ++ item :: bs).length ≤ jumpSize * state.jumpDiv + 2 := by
    rcases hIndexed.lag with hLag | ⟨hHalf, hDiv, hLag⟩
    · omega
    · have : jumpSize * state.jumpDiv = 2 * (state.jumpLimit * state.jumpDiv) := by
        rw [← hHalf, Nat.mul_assoc]
      have := Nat.mul_le_mul hLimit hDiv
      omega
  unfold stateInsert
  rw [if_neg (by omega)]
  simp only [hFrom, hShift, bind_eq_bind, bind_some, hLast]
  refine rebuild_spec hLinked ?_ hRoom hNew hGet (by omega)
    (by dsimp only; omega) (by simp) (Nat.zero_le _) (by dsimp only; omega)
  rw [hLength]
  omega

---
-- One Insertion
---

/- What holds between the calls. -/
structure Good (func : N → N → Int) (w : World N) (ns : List N) : Prop where
  holds : Holds w.mem w.list ns
  sorted : Sorted func ns
  small : ns.length ≤ 1 → w.state.jumpDiv = 1
  indexed : ns ≠ [] → Indexed w.state ns

/-
  No `int` of a call gets too large: the number of items, and
  the end of the window around the entry of the jump table in
  which the place is searched.
-/
def IntsFit (func : N → N → Int) (w : World N) (item : N) : Prop :=
  ∀ list, w.list = some list → (w.mem list).next ≠ none →
    (w.state.inserted : Int) + 1 ≤ CInt.intMax ∧
    ∀ cur ct cmp,
      searchTable func w.state item = some (cur, ct, cmp) →
      ¬ (cur = 0 ∧ 0 < cmp) →
      ¬ (cmp < 0 ∧ some ct = (w.mem list).last) →
      (cur : Int) * w.state.jumpDiv + w.state.jumpDiv + 1 ≤
        CInt.intMax

variable {p : Nat}

/- The first entry that is not before a position. -/
theorem ceil_le_iff {d : Nat} (k : Nat) (hDiv : 1 ≤ d) :
    (if p % d ≠ 0 then p / d + 1 else p / d) ≤ k ↔ p ≤ k * d := by
  have hSplit := Nat.div_add_mod p d
  have hMod := Nat.mod_lt p hDiv
  rw [Nat.mul_comm] at hSplit
  rcases Nat.lt_or_ge (p / d) k with hLess | hLe
  · have hMul := Nat.mul_le_mul_right d hLess
    rw [Nat.succ_mul] at hMul
    constructor
    · intro
      omega
    · intro
      split <;> omega
  · have hMul := Nat.mul_le_mul_right d hLe
    rcases Nat.eq_or_lt_of_le hLe with rfl | hLess
    · constructor
      · intro h
        split at h <;> omega
      · intro h
        rw [if_neg (by omega)]
    · have hMore := Nat.mul_le_mul_right d hLess
      rw [Nat.succ_mul] at hMore
      constructor
      · intro h
        split at h <;> omega
      · intro h
        omega

/- An item at its place in the sorted list. -/
theorem Sorted.insert_at (hSorted : Sorted func ns) (hOrder : Order func)
    (hBefore : ∀ j a, j < p → ns[j]? = some a → func a item ≤ 0)
    (hAfter : ∀ j b, p ≤ j → ns[j]? = some b → 0 ≤ func b item) :
    Sorted func (ns.take p ++ item :: ns.drop p) := by
  apply Sorted.insert _ hOrder
  · intro a ha
    rcases mem_iff_getElem?.mp ha with ⟨j, hj⟩
    rw [getElem?_take] at hj
    split at hj
    · rename_i hLess
      exact hBefore j a hLess hj
    · simp at hj
  · intro b hb
    rcases mem_iff_getElem?.mp hb with ⟨j, hj⟩
    rw [getElem?_drop] at hj
    exact hAfter (p + j) b (by omega) hj
  · rwa [take_append_drop]

/- The item is linked, and the table is brought up to date. -/
theorem insert_done {list : Option N} (idx offset : Nat) (hOrder : Order func)
    (hHolds : Holds mem list (ns.take p ++ item :: ns.drop p))
    (hSorted : Sorted func ns) (hIndexed : Indexed state ns) (hLe : p ≤ ns.length)
    (hBefore : ∀ j a, j < p → ns[j]? = some a → func a item ≤ 0)
    (hAfter : ∀ j b, p ≤ j → ns[j]? = some b → 0 ≤ func b item)
    (hInt : (state.inserted : Int) + 1 ≤ CInt.intMax)
    (hIdx : ∀ k, k < state.jumpLimit →
      ((if offset ≠ 0 then idx + 1 else idx) ≤ k ↔
        p ≤ k * state.jumpDiv)) :
    ∃ state', stateInsert mem state idx offset =
        some state' ∧
      Good func ⟨mem, list, state'⟩ (ns.take p ++ item :: ns.drop p) := by
  have hLength : (ns.take p).length = p := by
    rw [length_take]
    omega
  have hWithin := hIndexed.within
  rcases stateInsert_spec hHolds.linked (by rwa [take_append_drop]) hInt
    (by rwa [hLength]) with ⟨state', hRun, hDone⟩
  refine ⟨state', hRun, hHolds, hSorted.insert_at hOrder hBefore hAfter, ?_, fun _ => hDone⟩
  intro hSmall
  simp only [length_append, length_take, length_cons, length_drop] at hSmall
  omega

/- The search in the jump table. -/
theorem searchTable_spec (hOrder : Order func)
    (hSorted : Sorted func ns) (hIndexed : Indexed state ns) :
    ∃ found, searchTable func state item = some found ∧
      Found func (fun k => ns[k * state.jumpDiv]?) item found ∧
      found.1 < state.jumpLimit ∧ Search.Bracket (probe func (fun k => ns[k * state.jumpDiv]?) item)
        0 (state.jumpLimit - 1) found.1 := by
  have hLimit := hIndexed.limit_pos
  rcases hIndexed.entry_eq (k := 0) hLimit with ⟨a, hEntry, hGet⟩
  have hAscending := ascending_of_sorted item state.jumpDiv hSorted
    hOrder (fun k hk => hIndexed.lt_length hk)
  unfold searchTable
  rw [hEntry, bind_eq_bind, bind_some]
  refine search_spec ?_ hAscending (by omega)
    (Search.inv_start (by omega)) ⟨hGet, rfl⟩ hLimit (by omega)
  intro i b j hi hj
  rcases hIndexed.entry_eq (k := j) (by omega) with ⟨c, hc, hcGet⟩
  exact ⟨c, hc, hcGet⟩

/- The search around an entry finds the place of the item. -/
theorem searchWindow_spec {list : Option N} {ct : N} {cur : Nat}
    {cmp : Int} (hOrder : Order func) (hHolds : Holds mem list ns)
    (hSorted : Sorted func ns) (hIndexed : Indexed state ns)
    (hFound : Found func (fun k => ns[k * state.jumpDiv]?) item (cur, ct, cmp))
    (hIn : cur < state.jumpLimit)
    (hBracket : Search.Bracket (probe func (fun k =>
    ns[k * state.jumpDiv]?) item) 0 (state.jumpLimit - 1) cur) :
    ∃ found', search func item (walk mem) state.inserted (cur * state.jumpDiv - state.jumpDiv - 1)
        (min (cur * state.jumpDiv + state.jumpDiv + 1) (state.inserted - 1))
        (cur * state.jumpDiv, ct, cmp) = some found' ∧
      Found func (fun k => ns[k]?) item found' ∧
      found'.1 < ns.length ∧
      (∀ j a, j < Search.place (probe func (fun k =>
          ns[k]?) item) found'.1 → ns[j]? = some a → func a item ≤ 0) ∧
      ∀ j b, Search.place
          (probe func (fun k => ns[k]?) item) found'.1 ≤ j →
        ns[j]? = some b → 0 ≤ func b item := by
  have hInserted := hIndexed.inserted
  have hCur := hIndexed.lt_length hIn
  have hAscending := ascending_of_sorted (n := ns.length) item 1 hSorted hOrder (by omega)
  simp only [Nat.mul_one] at hAscending
  have hTable : ∀ k,
      probe func (fun k => ns[k * state.jumpDiv]?) item k =
        probe func (fun k => ns[k]?) item (k * state.jumpDiv) := fun _ => rfl
  unfold Search.Bracket at hBracket
  simp only [hTable] at hBracket
  have hProbe : ∀ j a, ns[j]? = some a →
      probe func (fun k => ns[k]?) item j = func a item := fun j a h => probe_of_get item h
  generalize hP : probe func (fun k => ns[k]?) item = P at hBracket hAscending hProbe
  have hBelow : ∀ j, j < cur * state.jumpDiv - state.jumpDiv - 1 → P j ≤ 0 := by
    intro j hj
    by_contra hNot
    have hPos := hAscending.pos j (cur * state.jumpDiv) (by omega) hCur (by omega)
    rcases hBracket with hZero | ⟨hNeg, -⟩ | ⟨-, hLeft⟩
    · omega
    · omega
    · have hOne : cur ≠ 0 := by
        rintro rfl
        omega
      have hSub := Nat.sub_one_mul cur state.jumpDiv
      have hNeg := hAscending.neg j ((cur - 1) * state.jumpDiv) (by omega) (by omega)
        (hLeft (cur - 1) (Nat.zero_le _) (by omega))
      omega
  have hAbove : ∀ j, min (cur * state.jumpDiv + state.jumpDiv + 1)
    (state.inserted - 1) < j → j < ns.length → 0 ≤ P j := by
    intro j hj hLess
    by_contra hNot
    have hNeg := hAscending.neg (cur * state.jumpDiv) j (by omega) hLess (by omega)
    rcases hBracket with hZero | ⟨-, hRight⟩ | ⟨hPos, -⟩
    · omega
    · have hMul := Nat.add_one_mul cur state.jumpDiv
      rcases Nat.lt_or_ge (cur + 1) state.jumpLimit with hMore | hLast
      · have hPos := hAscending.pos ((cur + 1) * state.jumpDiv) j
          (by omega) hLess (hRight (cur + 1) (by omega) (by omega))
        omega
      · -- The list ends in the window behind the last entry.
        have hLimit : cur + 1 = state.jumpLimit := by omega
        have hLag := hIndexed.lag
        rw [← hLimit] at hLag
        omega
    · omega
  have hFetch : ∀ i a j, ns[i]? = some a →
      j ≤ min (cur * state.jumpDiv + state.jumpDiv + 1)
        (state.inserted - 1) →
      ∃ b, walk mem i a j = some b ∧ ns[j]? = some b := by
    intro i a j hGet hj
    exact walk_spec hHolds.linked hGet (by omega)
  have hStart : Found func (fun k => ns[k]?) item
      (cur * state.jumpDiv, ct, cmp) := ⟨hFound.get_eq, hFound.cmp_eq⟩
  have hHi : min (cur * state.jumpDiv + state.jumpDiv + 1) (state.inserted - 1) < ns.length := by
    omega
  have hFuel : min (cur * state.jumpDiv + state.jumpDiv + 1) (state.inserted - 1) + 1 -
      (cur * state.jumpDiv - state.jumpDiv - 1) ≤ state.inserted := by
    omega
  rcases search_spec hFetch (hP ▸ hAscending) hHi
    (Search.inv_start (by omega)) hStart hCur hFuel with ⟨found', hRun, hFound', hIn', hBracket'⟩
  rw [hP] at hBracket'
  have hPlace := hBracket'.place_spec hAscending hIn' hBelow hAbove
  refine ⟨found', hRun, hFound', hIn', ?_, ?_⟩
  · intro j a hj ha
    rw [← hProbe j a ha]
    exact hPlace.1 j (hP ▸ hj)
  · intro j b hj hb
    rw [← hProbe j b hb]
    exact hPlace.2 j (hP ▸ hj) (List.getElem?_eq_some_iff.mp hb).1

variable [DecidableEq N]

variable {w : World N} {list : N}

/- An item is inserted where the search in the table ended. -/
theorem insertFound_spec (hOrder : Order func)
    (hHolds : Holds w.mem (some list) ns) (hSorted : Sorted func ns)
    (hIndexed : Indexed w.state ns) (hNew : item ∉ ns) (hFound :
    Found func (fun k => ns[k * w.state.jumpDiv]?) item found)
    (hIn : found.1 < w.state.jumpLimit) (hBracket : Search.Bracket (probe func
    (fun k => ns[k * w.state.jumpDiv]?) item) 0 (w.state.jumpLimit - 1)
    found.1) (hInt : (w.state.inserted : Int) + 1 ≤ CInt.intMax)
    (hWindow : ¬ (found.1 = 0 ∧ 0 < found.2.2) → ¬ (found.2.2 < 0 ∧
        some found.2.1 = (w.mem list).last) →
      (found.1 : Int) * w.state.jumpDiv +
        w.state.jumpDiv + 1 ≤ CInt.intMax) :
    ∃ w' p, insertFound func w list item found = some w' ∧
      Good func w' (ns.take p ++ item :: ns.drop p) := by
  rcases found with ⟨cur, ct, cmp⟩
  have hGet : ns[cur * w.state.jumpDiv]? = some ct := hFound.get_eq
  have hCmp : cmp = func ct item := hFound.cmp_eq
  have hDiv := hIndexed.div_pos
  dsimp only at hIn hBracket hWindow
  have hAscending := ascending_of_sorted (n := ns.length) item 1 hSorted hOrder (by omega)
  simp only [Nat.mul_one] at hAscending
  have hProbe : ∀ j a, ns[j]? = some a →
      probe func (fun k => ns[k]?) item j = func a item := fun j a h => probe_of_get item h
  unfold insertFound
  dsimp only
  by_cases hHead : cur = 0 ∧ 0 < cmp
  · -- The item gets the head.
    rcases hHead with ⟨rfl, hPos⟩
    rw [Nat.zero_mul] at hGet
    rw [if_pos ⟨rfl, hPos⟩]
    rcases prependRelative_at hHolds hNew hGet with ⟨mem', list', hRun, hDone⟩
    have hAfter : ∀ j b, 0 ≤ j → ns[j]? = some b → 0 ≤ func b item := by
      intro j b hj hb
      have := hAscending.pos 0 j hj (List.getElem?_eq_some_iff.mp hb).1
        (by rw [hProbe 0 ct hGet]; omega)
      rw [hProbe j b hb] at this
      omega
    rcases insert_done 0 0 hOrder hDone hSorted hIndexed
      (by omega) (by omega) hAfter hInt (by simp) with ⟨state', hState, hGood⟩
    exact ⟨_, 0, by simp [hRun, hState], hGood⟩
  · rw [if_neg hHead]
    by_cases hLast : cmp < 0 ∧ some ct = (w.mem list).last
    · -- The item gets the last one.
      rw [if_pos hLast]
      have hEnd := hHolds.last_eq
      rw [← hLast.2, getLast?_eq_getElem?] at hEnd
      rcases append_spec w.state.inserted hHolds hNew with ⟨mem', hRun, hDone⟩
      have hBefore : ∀ j a, j < ns.length → ns[j]? = some a → func a item ≤ 0 := by
        intro j a hj ha
        exact hOrder.trans a ct item (hSorted.le hOrder (by omega) ha hEnd.symm) (by omega)
      have hAfter : ∀ j b, ns.length ≤ j → ns[j]? = some b → 0 ≤ func b item := by
        intro j b hj hb
        have := (List.getElem?_eq_some_iff.mp hb).1
        omega
      have hIdx : ∀ k, k < w.state.jumpLimit →
          ((if 1 ≠ 0 then w.state.jumpLimit - 1 + 1
            else w.state.jumpLimit - 1) ≤ k ↔ ns.length ≤ k * w.state.jumpDiv) := by
        intro k hk
        have := hIndexed.lt_length hk
        rw [if_pos (by omega)]
        omega
      rcases insert_done _ _ hOrder (by simpa using hDone)
        hSorted hIndexed (le_refl _) hBefore hAfter hInt hIdx with ⟨state', hState, hGood⟩
      exact ⟨_, ns.length, by simp [hRun, hState], hGood⟩
    · -- The place is searched around the entry.
      rw [if_neg hLast, if_neg (by have := hWindow hHead hLast; omega)]
      rcases searchWindow_spec hOrder hHolds hSorted hIndexed hFound hIn hBracket with
        ⟨⟨i, r, c⟩, hSearch, hFound', hIn', hBefore, hAfter⟩
      have hAt : ns[i]? = some r := hFound'.get_eq
      have hSign : probe func (fun k => ns[k]?) item i = c := hFound'.probe_eq
      dsimp only at hIn' hBefore hAfter
      unfold Search.place at hBefore hAfter
      rw [hSign] at hBefore hAfter
      simp only [hSearch, bind_eq_bind, bind_some]
      by_cases hSmaller : c ≤ 0
      · rw [if_pos hSmaller] at hBefore hAfter
        rcases appendRelative_at w.state.inserted hHolds hNew hAt with ⟨mem', hRun, hDone⟩
        rcases insert_done _ _ hOrder hDone hSorted hIndexed (by omega)
          hBefore hAfter hInt (fun k _ => ceil_le_iff k hDiv) with ⟨state', hState, hGood⟩
        exact ⟨_, i + 1, by simp [hSmaller, hRun, hState], hGood⟩
      · rw [if_neg hSmaller] at hBefore hAfter
        rcases prependRelative_at hHolds hNew hAt with ⟨mem', list', hRun, hDone⟩
        rcases insert_done _ _ hOrder hDone hSorted hIndexed (by omega)
          hBefore hAfter hInt (fun k _ => ceil_le_iff k hDiv) with ⟨state', hState, hGood⟩
        exact ⟨_, i, by simp [hSmaller, hRun, hState], hGood⟩

/- A call without room for an `int` is a fault. -/
theorem insertFound_none (hNot : ¬ ((w.state.inserted : Int) + 1 ≤
    CInt.intMax ∧ (¬ (found.1 = 0 ∧ 0 < found.2.2) → ¬ (found.2.2 < 0 ∧
          some found.2.1 = (w.mem list).last) →
        (found.1 : Int) * w.state.jumpDiv +
          w.state.jumpDiv + 1 ≤ CInt.intMax))) : insertFound func w list item found = none := by
  rcases found with ⟨cur, ct, cmp⟩
  by_cases hInt : (w.state.inserted : Int) + 1 ≤ CInt.intMax
  · have hWindow : ¬ (cur = 0 ∧ 0 < cmp) ∧
        ¬ (cmp < 0 ∧ some ct = (w.mem list).last) ∧
        CInt.intMax < (cur : Int) * w.state.jumpDiv + w.state.jumpDiv + 1 := by
      by_contra hFits
      refine hNot ⟨hInt, fun hHead hLast => ?_⟩
      by_contra hGt
      exact hFits ⟨hHead, hLast, by dsimp only at hGt; omega⟩
    unfold insertFound
    dsimp only
    rw [if_neg hWindow.1, if_neg hWindow.2.1, if_pos hWindow.2.2]
  · have hNone : ∀ (mem : Memory N) idx offset, stateInsert mem w.state idx offset = none := by
      intro mem idx offset
      unfold stateInsert
      rw [if_pos (by omega)]
    unfold insertFound
    simp [hNone]

/- The table of two items. -/
omit [DecidableEq N] in
theorem indexed_pair (hDiv : state.jumpDiv = 1)
    (hLimit : state.jumpLimit = 2) (hInserted : state.inserted = 2)
    (hFirst : state.jumpTable 0 = some a)
    (hSecond : state.jumpTable 1 = some b) : Indexed state [a, b] := by
  refine ⟨⟨?_, ?_, ?_, hInserted, ?_, ?_⟩, .inl ?_⟩
  · omega
  · omega
  · rw [hLimit]
    decide
  · intro k hk
    rw [hLimit] at hk
    rw [hDiv, Nat.mul_one]
    rcases (by omega : k = 0 ∨ k = 1) with rfl | rfl
    · exact hFirst
    · exact hSecond
  · rw [hLimit, hDiv]
    simp
  · rw [hLimit, hDiv]
    simp

/- The second item. -/
theorem insertSecond_spec (hOrder : Order func)
    (hHolds : Holds w.mem (some list) [list]) (hNew : item ∉ [list]) (hDiv : w.state.jumpDiv = 1)
    (hEntry : w.state.jumpTable 0 = some list) :
    ∃ w' ns', insertSecond func w list item = some w' ∧
      Good func w' ns' ∧ ns'.Perm (item :: [list]) := by
  unfold insertSecond
  dsimp only
  split
  · rename_i hLess
    rcases append_spec 1 hHolds hNew with ⟨mem', hRun, hDone⟩
    simp only [hRun, bind_eq_bind, bind_some]
    refine ⟨_, [list, item], rfl, ⟨hDone, ?_, fun _ => hDiv,
      fun _ => indexed_pair hDiv rfl rfl ?_ ?_⟩, ?_⟩
    · exact pairwise_pair.mpr (by omega)
    · simpa using hEntry
    · simp
    · exact List.Perm.swap ..
  · rename_i hNot
    rcases prepend_spec hHolds hNew with ⟨mem', hRun, hDone⟩
    rw [hRun]
    refine ⟨_, [item, list], rfl, ⟨hDone, ?_, fun _ => hDiv, fun _ =>
      indexed_pair hDiv rfl rfl ?_ ?_⟩, List.Perm.refl _⟩
    · have := hOrder.flip list item
      have := hOrder.flip item list
      exact pairwise_pair.mpr (by omega)
    · simp
    · simpa using hEntry

/-
  A call inserts the item into the sorted list, if the `int`s
  of the call fit.
-/
theorem sortedStateInsert_spec (hOrder : Order func)
    (hGood : Good func w ns) (hNew : item ∉ ns) :
    (IntsFit func w item →
      ∃ w' ns', sortedStateInsert func w item = some w' ∧
        Good func w' ns' ∧ ns'.Perm (item :: ns)) ∧
    (¬ IntsFit func w item → sortedStateInsert func w item = none) := by
  have hHolds := hGood.holds
  cases ns with
  | nil =>
    have hList : w.list = none := hHolds.head
    have hDiv := hGood.small (by simp)
    unfold sortedStateInsert
    rw [hList]
    refine ⟨fun _ => ?_, fun hNot => ?_⟩
    · rcases append_none w.mem 0 item with ⟨mem', hRun, hDone⟩
      simp only [hRun, bind_eq_bind, bind_some]
      refine ⟨_, [item], rfl, ⟨hDone, pairwise_singleton .., fun _ =>
        hDiv, fun _ => ⟨⟨?_, le_refl _, ?_, rfl, ?_, ?_⟩, ?_⟩⟩,
        List.Perm.refl _⟩
      · dsimp only
        omega
      · dsimp only
        decide
      · intro k hk
        obtain rfl : k = 0 := by dsimp only at hk; omega
        simp
      · simp
      · left
        simp
    · refine absurd ?_ hNot
      intro list hSome
      rw [hList] at hSome
      simp at hSome
  | cons list rest =>
    have hList : w.list = some list := hHolds.head
    have hLinked : DList.Linked _ _ ([] ++ list :: rest) := hHolds.linked
    have hNext := hLinked.next_eq
    rw [hList] at hHolds
    have hIndexed := hGood.indexed (by simp)
    unfold sortedStateInsert
    rw [hList]
    dsimp only
    cases rest with
    | nil =>
      have hNext : (w.mem list).next = none := hNext
      have hDiv := hGood.small (by simp)
      have hEntry := hIndexed.entry 0 hIndexed.limit_pos
      rw [hNext]
      dsimp only
      refine ⟨fun _ => ?_, fun hNot => ?_⟩
      · exact insertSecond_spec hOrder hHolds hNew hDiv (by simpa using hEntry)
      · refine absurd ?_ hNot
        intro list' hSome hMore
        rw [hList] at hSome
        obtain rfl := some.inj hSome
        exact absurd hNext hMore
    | cons n rest =>
      have hNext : (w.mem list).next = some n := hNext
      rcases searchTable_spec hOrder hGood.sorted hIndexed with
        ⟨found, hSearch, hFound, hIn, hBracket⟩
      have hFit : IntsFit func w item ↔
          (w.state.inserted : Int) + 1 ≤ CInt.intMax ∧
          (¬ (found.1 = 0 ∧ 0 < found.2.2) → ¬ (found.2.2 < 0 ∧
                some found.2.1 = (w.mem list).last) →
              (found.1 : Int) * w.state.jumpDiv + w.state.jumpDiv + 1 ≤ CInt.intMax) := by
        constructor
        · intro hFit
          have h := hFit list hList (by simp [hNext])
          exact ⟨h.1, h.2 _ _ _ hSearch⟩
        · rintro ⟨hInt, hWindow⟩ list' hSome -
          rw [hList] at hSome
          obtain rfl := some.inj hSome
          refine ⟨hInt, ?_⟩
          intro cur ct cmp hEq
          rw [hSearch] at hEq
          obtain rfl := some.inj hEq
          exact hWindow
      rw [hNext, hFit]
      dsimp only
      rw [hSearch, bind_eq_bind, bind_some]
      refine ⟨?_, fun hNot => insertFound_none hNot⟩
      rintro ⟨hInt, hWindow⟩
      rcases insertFound_spec hOrder hHolds hGood.sorted
        hIndexed hNew hFound hIn hBracket hInt hWindow with ⟨w', p, hRun, hDone⟩
      refine ⟨w', _, hRun, hDone, ?_⟩
      refine perm_middle.trans ?_
      rw [take_append_drop]

---
-- Runs
---

/-
  The list has the items in order, and the table its nodes at
  the multiples of the step.
-/
structure Correct (func : N → N → Int) (w : World N) (items ns : List N) : Prop where
  holds : Holds w.mem w.list ns
  sorted : Sorted func ns
  perm : ns.Perm items
  inserted : w.state.inserted = ns.length
  limit : w.state.jumpLimit ≤ jumpSize
  table : ∀ k, k < w.state.jumpLimit →
    k * w.state.jumpDiv < ns.length ∧
      w.state.jumpTable k = ns[k * w.state.jumpDiv]?
  lag : ns.length ≤
    w.state.jumpLimit * w.state.jumpDiv + 2

/- The states before an item is inserted, and behind that. -/
structure Reached (func : N → N → Int) (w : World N) (items ns : List N) : Prop where
  good : Good func w ns
  perm : ns.Perm items
  start : ns = [] → w.state = .new

variable {items : List N}

omit [DecidableEq N] in
theorem Reached.correct (hReached : Reached func w items ns) : Correct func w items ns := by
  have hGood := hReached.good
  by_cases hEmpty : ns = []
  · have hState := hReached.start hEmpty
    subst hEmpty
    refine ⟨hGood.holds, hGood.sorted, hReached.perm, ?_, ?_, ?_, ?_⟩ <;> rw [hState]
    · rfl
    · exact Nat.zero_le _
    · intro k hk
      exact absurd hk (Nat.not_lt_zero k)
    · exact Nat.zero_le _
  · have hIndexed := hGood.indexed hEmpty
    refine ⟨hGood.holds, hGood.sorted, hReached.perm, hIndexed.inserted,
      hIndexed.limit_le, fun k hk =>
      ⟨hIndexed.lt_length hk, hIndexed.entry k hk⟩, ?_⟩
    rcases hIndexed.lag with hLag | ⟨-, -, hLag⟩ <;> omega

omit [DecidableEq N] in
theorem reached_empty (mem : Memory N) : Reached func (World.empty mem) [] [] where
  good :=
    { holds := ⟨DList.linked_nil, rfl, by simp⟩
      sorted := List.Pairwise.nil
      small := fun _ => rfl
      indexed := fun h => absurd rfl h }
  perm := List.Perm.refl _
  start := fun _ => rfl

/- Insertions from any state that is reached. -/
theorem run_reached {done : List N} (hOrder : Order func) (hReached : Reached func w done ns)
    (hNodup : (items ++ done).Nodup) :
    (Runs.Guarded (sortedStateInsert func) (IntsFit func) w items →
        ∃ w' ns', Runs.run (sortedStateInsert func) w items =
          some w' ∧ Reached func w' (items ++ done) ns') ∧
    ((Runs.run (sortedStateInsert func) w items).isSome → Runs.Guarded
      (sortedStateInsert func) (IntsFit func) w items) := by
  induction items generalizing w ns done with
  | nil => exact ⟨fun _ => ⟨w, ns, rfl, hReached⟩, fun _ => trivial⟩
  | cons item items ih =>
    have hNew : item ∉ ns := by
      rw [hReached.perm.mem_iff]
      rw [cons_append, nodup_cons] at hNodup
      intro hMem
      exact hNodup.1 (mem_append_right _ hMem)
    have hMoved : (items ++ item :: done).Perm (item :: items ++ done) := perm_middle
    have hSpec := sortedStateInsert_spec hOrder hReached.good hNew
    by_cases hFit : IntsFit func w item
    · rcases hSpec.1 hFit with ⟨w', ns', hStep, hGood, hPerm⟩
      have hNext : Reached func w' (item :: done) ns' := by
        refine ⟨hGood, hPerm.trans (hReached.perm.cons item), ?_⟩
        rintro rfl
        simp at hPerm
      rcases ih hNext (hMoved.nodup_iff.mpr hNodup) with ⟨hRun, hGuard⟩
      constructor
      · intro hGuarded
        rcases hRun (hGuarded.2 w' hStep) with ⟨w'', ns'', hDone, hLast⟩
        refine ⟨w'', ns'', ?_, hLast.good, hLast.perm.trans hMoved, hLast.start⟩
        rw [Runs.run_cons, hStep]
        exact hDone
      · intro hSome
        rw [Runs.run_cons, hStep] at hSome
        refine ⟨hFit, ?_⟩
        intro w'' hEq
        rw [hStep] at hEq
        obtain rfl := some.inj hEq
        exact hGuard hSome
    · constructor
      · intro hGuarded
        exact absurd hGuarded.1 hFit
      · intro hSome
        rw [Runs.run_cons, hSpec.2 hFit] at hSome
        simp at hSome

/-
  Whatever items are inserted, the list is sorted and the
  table fits to it exactly when no `int` gets too large.
-/
theorem sorted_insert_iff {items : List N} (mem : Memory N)
    (hOrder : Order func) (hNodup : items.Nodup) :
    (∃ w ns, Runs.run (sortedStateInsert func)
        (World.empty mem) items = some w ∧ Correct func w items ns) ↔
        Runs.Guarded (sortedStateInsert func) (IntsFit func)
        (World.empty mem) items := by
  have hRun := run_reached hOrder
    (reached_empty mem) (by rwa [append_nil])
  rw [append_nil] at hRun
  constructor
  · rintro ⟨w, ns, hSome, -⟩
    exact hRun.2 (by rw [hSome]; rfl)
  · intro hGuarded
    rcases hRun.1 hGuarded with ⟨w, ns, hSome, hReached⟩
    exact ⟨w, ns, hSome, hReached.correct⟩

/- The items of a run are counted by an `int`. -/
theorem run_length_le (mem : Memory N) (hOrder : Order func) (hNodup : items.Nodup) (hRun : Runs.run
    (sortedStateInsert func) (World.empty mem) items = some w) :
    (items.length : Int) ≤ CInt.intMax := by
  rcases eq_nil_or_concat items with rfl | ⟨init, x, rfl⟩
  · simp [CInt.intMax]
  · rw [concat_eq_append] at *
    rw [Runs.run_append, bind_eq_some_iff] at hRun
    rcases hRun with ⟨w₁, hInit, hLast⟩
    rw [nodup_append] at hNodup
    have hReach := run_reached hOrder (reached_empty mem) (by simpa using hNodup.1)
    rcases hReach.1 (hReach.2 (by rw [hInit]; rfl)) with ⟨w', ns, hSome, hReached⟩
    rw [hInit] at hSome
    obtain rfl := some.inj hSome
    rw [append_nil] at hReached
    have hLength := hReached.perm.length_eq
    have hNew : x ∉ ns := by
      intro hMem
      exact hNodup.2.2 x (hReached.perm.mem_iff.mp hMem) x (by simp) rfl
    have hFit : IntsFit func w₁ x := by
      by_contra hNot
      rw [Runs.run_cons, (sortedStateInsert_spec hOrder hReached.good hNew).2 hNot] at hLast
      simp at hLast
    rw [length_append, ← hLength]
    have hHolds := hReached.good.holds
    rcases ns with - | ⟨list, - | ⟨n, rest⟩⟩
    · simp [CInt.intMax]
    · simp [CInt.intMax]
    · have hLinked : DList.Linked _ _ ([] ++ list :: n :: rest) := hHolds.linked
      have hNext := hLinked.next_eq
      have h := (hFit list hHolds.head (by
        rw [hNext]
        simp)).1
      rw [(hReached.good.indexed (by simp)).inserted] at h
      simpa using h

/- Numbers compare by their difference. -/
def compareNat (a b : Nat) : Int :=
  a - b

theorem order_compareNat : Order compareNat := by
  constructor
  · intro a b
    unfold compareNat
    omega
  · intro a b c hab hbc
    unfold compareNat at *
    omega

/- No links yet. -/
def noLinks : Memory Nat :=
  fun _ => ⟨none, none, none⟩

/- Three items. -/
theorem sorted_insert_sample :
    (∃ w ns, Runs.run (sortedStateInsert compareNat)
        (World.empty noLinks) [3, 1, 2] = some w ∧
      Correct compareNat w [3, 1, 2] ns) ↔
      Runs.Guarded (sortedStateInsert compareNat) (IntsFit compareNat)
        (World.empty noLinks) [3, 1, 2] :=
  sorted_insert_iff _ order_compareNat (by decide)

/- The last of 2 ^ 31 items is one too many. -/
theorem insert_overflow :
    Order compareNat ∧ (List.range (2 ^ 31)).Nodup ∧
      ¬ ∃ w ns, Runs.run (sortedStateInsert compareNat)
          (World.empty noLinks) (List.range (2 ^ 31)) =
            some w ∧
        Correct compareNat w (List.range (2 ^ 31)) ns := by
  refine ⟨order_compareNat, nodup_range, ?_⟩
  rintro ⟨w, ns, hRun, -⟩
  have hLe := run_length_le noLinks order_compareNat nodup_range hRun
  rw [length_range] at hLe
  exact absurd hLe (by decide)

end Efl.Eina.Inlist
