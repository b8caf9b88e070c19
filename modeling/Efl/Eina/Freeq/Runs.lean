import Efl.Eina.Freeq.Model
import Efl.Lib.Fifo

/-
  What a free queue keeps, over all runs.

  With a negative limit on their number the loop that frees
  the oldest items never ends, as it still turns when no item
  is left.

  Main declarations:
    * `Layout`, `Pending`
    * `Correct`, `Meets`
    * `process_spec`
    * `processWhile_spec`
-/

---
-- Pending Items
---

namespace Efl.Eina.Freeq

open List Option Function

/- The cells from `i` to `e` have the items. -/
def Cells (cell : Nat → Option Item) : Nat → Nat → List Item → Prop
  | i, e, [] => i = e
  | i, e, x :: xs => cell i = some x ∧ Cells cell (i + 1) e xs

variable {cell : Nat → Option Item} {i e : Nat} {xs : List Item}

theorem Cells.le (hCells : Cells cell i e xs) : i ≤ e := by
  induction xs generalizing i with
  | nil => exact Nat.le_of_eq hCells
  | cons x xs ih =>
    have hRest := ih hCells.2
    omega

/- There are none just when the cells are used up. -/
theorem Cells.eq_iff (hCells : Cells cell i e xs) : i = e ↔ xs = [] := by
  cases xs with
  | nil => exact iff_of_true hCells rfl
  | cons x xs =>
    have hRest := hCells.2.le
    exact iff_of_false (by omega) (by simp)

theorem Cells.concat (x : Item) (hCells : Cells cell i e xs) :
    Cells (update cell e (some x)) i (e + 1) (xs ++ [x]) := by
  induction xs generalizing i with
  | nil =>
    obtain rfl : i = e := hCells
    exact ⟨update_self .., rfl⟩
  | cons y xs ih =>
    have hBelow := hCells.2.le
    refine ⟨?_, ih hCells.2⟩
    rw [update_of_ne (by omega)]
    exact hCells.1

/- The items of a block -/
def Part (fb : Block) (xs : List Item) : Prop :=
  Cells fb.items fb.start fb.stop xs ∧ fb.stop ≤ itemBlockCount

/- The blocks of a queue, with the items of each -/
structure Layout (fq : FreeQ) (bs : List Nat) (xss : List (List Item)) : Prop where
  queue : Fifo.Queue (fun b => (fq.heap.node b).next)
    fq.blocks fq.blockLast bs
  live : fq.heap.live = bs.toFinset
  parts : List.Forall₂
    (fun b xs => Part (fq.heap.node b) xs) bs xss

/- The items that a queue has, from the oldest on -/
def Pending (fq : FreeQ) (items : List Item) : Prop :=
  ∃ bs xss, Layout fq bs xss ∧ (∀ xs ∈ xss, xs ≠ []) ∧
    items = xss.flatten

def total (items : List Item) : Nat :=
  (items.map Item.size).sum

/- The items are pending, and the counts are theirs. -/
structure Holds (fq : FreeQ) (items : List Item) : Prop where
  pending : Pending fq items
  count : fq.count = items.length
  memTotal : fq.memTotal = total items
  short : items.length ≤ CInt.intMax
  small : total items < sizeMax

@[simp] theorem total_nil : total [] = 0 := rfl

@[simp] theorem total_cons (x : Item) (items : List Item) :
    total (x :: items) = x.size + total items := rfl

@[simp] theorem total_append (xs ys : List Item) : total (xs ++ ys) = total xs + total ys := by
  unfold total
  rw [map_append, sum_append]

theorem pending_start (totalMax : Int) (memMax : Nat) : Pending (newDefault totalMax memMax) [] :=
  ⟨[], [], ⟨Fifo.queue_nil _, rfl, .nil⟩, by simp, rfl⟩

variable {fq : FreeQ} {items : List Item}

/- What a queue without items has -/
theorem Pending.nil_iff (hPending : Pending fq items) : fq.blocks = none ↔ items = [] := by
  rcases hPending with ⟨bs, xss, hLayout, hFull, rfl⟩
  rw [hLayout.queue.chain.head_eq]
  cases hLayout.parts with
  | nil => exact iff_of_true rfl rfl
  | @cons b xs bs xss hPart hParts =>
    have hSome := hFull xs (by simp)
    exact iff_of_false (by simp) (by simp [hSome])

variable {fq' : FreeQ}

/- Only the blocks and the counts matter. -/
theorem Holds.congr (hHolds : Holds fq items) (hBlocks : fq'.blocks = fq.blocks)
    (hLast : fq'.blockLast = fq.blockLast)
    (hHeap : fq'.heap = fq.heap) (hCount : fq'.count = fq.count)
    (hMem : fq'.memTotal = fq.memTotal) : Holds fq' items := by
  rcases hHolds.pending with ⟨bs, xss, ⟨hQueue, hLive, hParts⟩, hFull, hItems⟩
  refine ⟨⟨bs, xss, ⟨?_, ?_, ?_⟩, hFull, hItems⟩,
    hCount.trans hHolds.count, hMem.trans hHolds.memTotal, hHolds.short, hHolds.small⟩
  · rw [hBlocks, hLast, hHeap]
    exact hQueue
  · rw [hHeap]
    exact hLive
  · rw [hHeap]
    exact hParts

/- The limits and the kind of the queue are not changed. -/
structure Same (fq fq' : FreeQ) : Prop where
  countMax : fq'.countMax = fq.countMax
  memMax : fq'.memMax = fq.memMax
  bypass : fq'.bypass = fq.bypass
  postponed : fq'.postponed = fq.postponed

theorem Same.refl (fq : FreeQ) : Same fq fq := ⟨rfl, rfl, rfl, rfl⟩

theorem Same.trans {fq'' : FreeQ} (hFirst : Same fq fq')
    (hSecond : Same fq' fq'') : Same fq fq'' where
  countMax := hSecond.countMax.trans hFirst.countMax
  memMax := hSecond.memMax.trans hFirst.memMax
  bypass := hSecond.bypass.trans hFirst.bypass
  postponed := hSecond.postponed.trans hFirst.postponed

---
-- Freeing the Oldest
---

/- The blocks keep their items. -/
theorem parts_congr {node node' : Nat → Block} {bs : List Nat} {xss : List (List Item)}
    (hParts : List.Forall₂ (fun b xs => Part (node b) xs) bs xss)
    (hSame : ∀ b ∈ bs, ∀ xs, Part (node b) xs → Part (node' b) xs) :
    List.Forall₂ (fun b xs => Part (node' b) xs) bs xss := by
  induction hParts with
  | nil => exact .nil
  | @cons b xs bs xss hPart hParts ih =>
    exact .cons (hSame b (by simp) xs hPart) (ih fun b' hMem => hSame b' (by simp [hMem]))

/-
  The oldest item is given to its function, and a block
  without items is freed.
-/
theorem process_layout {x : Item} (hPending : Pending fq (x :: items)) :
    ∃ fq', process fq = some fq' ∧ Pending fq' items ∧
      fq'.freed = fq.freed ++ [x] ∧ Same fq fq' ∧
      fq'.count = CInt.wrap (fq.count - 1) ∧
      fq'.memTotal = (fq.memTotal + sizeMax - x.size) % sizeMax := by
  rcases hPending with ⟨bs, xss, hLayout, hFull, hItems⟩
  rcases hLayout with ⟨hQueue, hLive, hParts⟩
  cases hParts with
  | nil => exact nomatch hItems
  | @cons b ys bs xss hPart hParts =>
    cases ys with
    | nil => exact absurd rfl (hFull [] (by simp))
    | cons y ys =>
      rw [flatten_cons, cons_append, List.cons.injEq] at hItems
      obtain ⟨rfl, rfl⟩ := hItems
      have hHead : fq.blocks = some b := hQueue.chain.1
      have hIn : b ∈ fq.heap.live := by
        rw [hLive]
        simp
      have hOut : b ∉ bs := (nodup_cons.mp hQueue.nodup).1
      unfold process
      rw [hHead]
      simp only [bind_eq_bind]
      rw [Heap.read_of_mem hIn, bind_some, hPart.1.1, bind_some]
      rw [hHead] at hQueue
      rcases hQueue.pop with ⟨rest, hRest, hLast, hMore⟩
      obtain rfl := (List.cons.inj hRest).2
      have hNodes : ∀ (c : Block), ∀ b' ∈ bs, update fq.heap.node b c b' = fq.heap.node b' := by
        intro c b' hMem
        apply update_of_ne
        rintro rfl
        exact hOut hMem
      have hFull' : ∀ xs ∈ xss, xs ≠ [] := fun xs hMem =>
        hFull xs (by simp [hMem])
      simp only [FreeQ.freeDo]
      split
      case isTrue hEnd =>
        have hNil : ys = [] := hPart.1.2.eq_iff.mp hEnd
        rw [Heap.free_of_mem (by exact hIn), bind_some]
        refine ⟨_, rfl, ⟨bs, xss, ⟨?_, ?_, ?_⟩, hFull', ?_⟩,
          rfl, ⟨rfl, rfl, rfl, rfl⟩, rfl, rfl⟩
        · simp only [Heap.node_set]
          cases hNext : (fq.heap.node b).next with
          | none =>
            rw [hLast hNext, if_pos rfl]
            exact Fifo.queue_nil _
          | some c =>
            rw [if_neg (by simp), ← hNext]
            exact (hMore (by simp [hNext])).congr fun b' hMem => by rw [hNodes _ b' hMem]
        · simp only [Heap.live_set]
          rw [hLive, toFinset_cons, Finset.erase_insert (by simpa using hOut)]
        · refine parts_congr hParts fun b' hMem ys hPart => ?_
          simp only [Heap.node_set]
          rw [hNodes _ b' hMem]
          exact hPart
        · rw [hNil, nil_append]
      case isFalse hMoreItems =>
        have hSome : ys ≠ [] := fun hNil =>
          hMoreItems (hPart.1.2.eq_iff.mpr hNil)
        refine ⟨_, rfl, ⟨b :: bs, ys :: xss, ⟨?_, ?_, .cons ?_ ?_⟩, ?_, rfl⟩,
          rfl, ⟨rfl, rfl, rfl, rfl⟩, rfl, rfl⟩
        · simp only [Heap.node_set, hHead]
          refine hQueue.congr fun b' hMem => ?_
          rcases mem_cons.mp hMem with rfl | hMem
          · rw [update_self]
          · rw [hNodes _ b' hMem]
        · simp only [Heap.live_set]
          exact hLive
        · simp only [Heap.node_set, update_self]
          exact ⟨hPart.1.2, hPart.2⟩
        · refine parts_congr hParts fun b' hMem ys hPart => ?_
          simp only [Heap.node_set]
          rw [hNodes _ b' hMem]
          exact hPart
        · intro xs hMem
          rcases mem_cons.mp hMem with rfl | hMem
          · exact hSome
          · exact hFull' xs hMem

---
-- Loops
---

/- The oldest items are freed, and the others are pending. -/
def Frees (fq : FreeQ) (items : List Item) (fq' : FreeQ) (rest : List Item) : Prop :=
  Holds fq' rest ∧ Same fq fq' ∧
    ∃ done, items = done ++ rest ∧ fq'.freed = fq.freed ++ done

theorem Frees.refl (hHolds : Holds fq items) : Frees fq items fq items :=
  ⟨hHolds, Same.refl fq, [], rfl, (append_nil _).symm⟩

variable {rest : List Item}

theorem Frees.trans {fq'' : FreeQ} {rest' : List Item} (hFirst : Frees fq items fq' rest)
    (hSecond : Frees fq' rest fq'' rest') : Frees fq items fq'' rest' := by
  rcases hFirst with ⟨-, hSame, done, rfl, hFreed⟩
  rcases hSecond with ⟨hHolds, hSame', done', rfl, hFreed'⟩
  refine ⟨hHolds, hSame.trans hSame', done ++ done', ?_, ?_⟩
  · rw [append_assoc]
  · rw [hFreed', hFreed, append_assoc]

section

variable (hFrees : Frees fq items fq' rest)

include hFrees

theorem Frees.log : fq'.freed ++ rest = fq.freed ++ items := by
  rcases hFrees with ⟨-, -, done, rfl, hFreed⟩
  rw [hFreed, append_assoc]

theorem Frees.length_le : rest.length ≤ items.length := by
  rcases hFrees with ⟨-, -, done, rfl, -⟩
  rw [length_append]
  omega

theorem Frees.total_le : total rest ≤ total items := by
  rcases hFrees with ⟨-, -, done, rfl, -⟩
  rw [total_append]
  omega

end

theorem process_spec {x : Item} (hHolds : Holds fq (x :: items)) :
    ∃ fq', process fq = some fq' ∧ Frees fq (x :: items) fq' items := by
  rcases process_layout hHolds.pending with ⟨fq', hProcess, hPending, hFreed, hSame, hCount, hMem⟩
  have hShort := hHolds.short
  have hSmall := hHolds.small
  rw [length_cons] at hShort
  rw [total_cons] at hSmall
  refine ⟨fq', hProcess, ⟨hPending, ?_, ?_, ?_, ?_⟩, hSame, [x],
    rfl, hFreed⟩
  · unfold CInt.intMax at hShort
    rw [hCount, hHolds.count, length_cons, CInt.wrap_of_inRange]
    · omega
    · unfold CInt.InRange
      omega
  · rw [hMem, hHolds.memTotal, total_cons,
      show x.size + total items + sizeMax - x.size =
        total items + sizeMax by omega, Nat.add_mod_right, Nat.mod_eq_of_lt (by omega)]
  · omega
  · omega

variable {fuel : Nat}

/-
  A loop that stops at the latest when no item is left ends
  after as many turns as there are items.
-/
theorem processWhile_spec (p : FreeQ → Prop) [DecidablePred p]
    (hHolds : Holds fq items) (hFuel : items.length < fuel)
    (hStop : ∀ fq', Holds fq' [] → Same fq fq' → ¬ p fq') :
    ∃ fq' rest, processWhile p fuel fq = some fq' ∧ Frees fq items fq' rest ∧ ¬ p fq' := by
  induction fuel generalizing fq items with
  | zero => exact absurd hFuel (Nat.not_lt_zero _)
  | succ fuel ih =>
    unfold processWhile
    split
    case isFalse hDone => exact ⟨fq, items, rfl, .refl hHolds, hDone⟩
    case isTrue hMore =>
      cases items with
      | nil => exact absurd hMore (hStop fq hHolds (Same.refl fq))
      | cons x items =>
        rcases process_spec hHolds with ⟨fq₁, hProcess, hFirst⟩
        rw [hProcess]
        rcases ih hFirst.1 (by rw [length_cons] at hFuel; omega)
          (fun fq' hNone hSame =>
            hStop fq' hNone (hFirst.2.1.trans hSame)) with ⟨fq', rest, hLoop, hFrees, hEnd⟩
        exact ⟨fq', rest, hLoop, hFirst.trans hFrees, hEnd⟩

theorem reduceLoop_spec (count : Nat) (hHolds : Holds fq items) :
    ∃ fq' rest, reduceLoop count fq = some fq' ∧ Frees fq items fq' rest := by
  induction count generalizing fq items with
  | zero => exact ⟨fq, items, rfl, .refl hHolds⟩
  | succ count ih =>
    unfold reduceLoop
    split
    case isFalse => exact ⟨fq, items, rfl, .refl hHolds⟩
    case isTrue hSome =>
      cases items with
      | nil =>
        have hCount := hHolds.count
        rw [length_nil] at hCount
        omega
      | cons x items =>
        rcases process_spec hHolds with ⟨fq₁, hProcess, hFirst⟩
        rw [hProcess]
        rcases ih hFirst.1 with ⟨fq', rest, hLoop, hFrees⟩
        exact ⟨fq', rest, hLoop, hFirst.trans hFrees⟩

/- The loop of `eina_freeq_clear` leaves nothing. -/
theorem clear_spec (hHolds : Holds fq items)
    (hFuel : items.length < fuel) : ∃ fq', clear fuel fq = some fq' ∧ Frees fq items fq' [] := by
  rcases processWhile_spec FreeQ.Counts hHolds hFuel
    (fun fq' hNone _ hSome => by
      have hCount := hNone.count
      unfold FreeQ.Counts at hSome
      rw [length_nil] at hCount
      omega) with ⟨fq', rest, hLoop, hFrees, hEnd⟩
  have hCount := hFrees.1.count
  unfold FreeQ.Counts at hEnd
  obtain rfl : rest = [] := by
    apply length_eq_zero_iff.mp
    omega
  exact ⟨fq', hLoop, hFrees⟩

/- With a limit that is not negative the flush ends in it. -/
theorem flushNolock_spec (hHolds : Holds fq items)
    (hFuel : items.length < fuel) (hKind : fq.postponed = false)
    (hLimit : 0 ≤ fq.countMax) :
    ∃ fq' rest, flushNolock fuel fq = some fq' ∧
      Frees fq items fq' rest ∧ fq'.count ≤ fq'.countMax ∧ fq'.memTotal ≤ fq'.memMax := by
  rcases processWhile_spec FreeQ.Over hHolds hFuel
    (fun fq' hNone hSame hOver => by
      have hCount := hNone.count
      have hMem := hNone.memTotal
      have hMax := hSame.countMax
      rw [length_nil] at hCount
      rw [total_nil] at hMem
      unfold FreeQ.Over at hOver
      omega) with ⟨fq', rest, hLoop, hFrees, hEnd⟩
  refine ⟨fq', rest, ?_, hFrees, ?_⟩
  · unfold flushNolock
    rw [hKind]
    exact hLoop
  · unfold FreeQ.Over at hEnd
    omega

---
-- Adding an Item
---

/- The slices of the blocks, the last of which may be empty -/
def Room (fq : FreeQ) (items : List Item) : Prop :=
  ∃ bs b xss xs, Layout fq (bs ++ [b]) (xss ++ [xs]) ∧
    (∀ ys ∈ xss, ys ≠ []) ∧ items = xss.flatten ++ xs ∧
    (fq.heap.node b).stop < itemBlockCount

/- A block that the allocator gives is put behind the others. -/
theorem blockAppend_room {fb : Nat} (hPending : Pending fq items)
    (hFresh : fb ∉ fq.heap.live) :
    ∃ fq', blockAppend fq (some fb) = some (fq', true) ∧
      Room fq' items ∧ Same fq fq' ∧ fq'.freed = fq.freed ∧
      fq'.count = fq.count ∧ fq'.memTotal = fq.memTotal := by
  rcases hPending with ⟨bs, xss, ⟨hQueue, hLive, hParts⟩, hFull, rfl⟩
  have hNew : fb ∉ bs := by
    rw [hLive] at hFresh
    simpa using hFresh
  unfold blockAppend
  rcases eq_nil_or_concat bs with rfl | ⟨init, last, rfl⟩
  · cases hParts
    rw [show fq.blocks = none from hQueue.chain]
    refine ⟨_, rfl, ⟨[], fb, [], [], ⟨⟨⟨rfl, ?_⟩, rfl, by simp⟩,
      ?_, .cons ?_ .nil⟩, by simp, by simp, ?_⟩, ⟨rfl, rfl, rfl, rfl⟩, rfl, rfl, rfl⟩
    · simp only [Heap.node_alloc, update_self]
      rfl
    · simp only [Heap.live_alloc, hLive]
      rfl
    · simp only [Heap.node_alloc, update_self]
      exact ⟨rfl, Nat.zero_le _⟩
    · simp only [Heap.node_alloc, update_self]
      decide
  · rw [concat_eq_append] at *
    have hTail : fq.blockLast = some last := by
      rw [hQueue.tail, getLast?_append]
      rfl
    have hHead : ∃ first, fq.blocks = some first := by
      rw [hQueue.chain.head_eq]
      cases init with
      | nil => exact ⟨_, rfl⟩
      | cons first init => exact ⟨_, rfl⟩
    rcases hHead with ⟨first, hHead⟩
    have hLastLive : last ∈ fq.heap.live := by
      rw [hLive]
      simp
    have hNe : last ≠ fb := by
      rintro rfl
      exact hFresh hLastLive
    rw [hHead, hTail]
    simp only [bind_eq_bind, bind_some]
    rw [Heap.modify_of_mem _ (by
      simp only [Heap.live_alloc, Finset.mem_insert]
      exact Or.inr hLastLive), bind_some]
    rw [hHead, hTail] at hQueue
    have hPush := hQueue.push hNew
    refine ⟨_, rfl, ⟨init ++ [last], fb, xss, [],
      ⟨?_, ?_, ?_⟩, hFull, by simp, ?_⟩, ⟨rfl, rfl, rfl, rfl⟩,
      rfl, rfl, rfl⟩
    · simp only [Heap.node_set, Heap.node_alloc]
      refine hPush.congr fun b hMem => ?_
      by_cases hLast : b = last
      · subst hLast
        rw [update_self, update_self]
      · rw [update_of_ne hLast, update_of_ne hLast]
        by_cases hFb : b = fb
        · subst hFb
          rw [update_self, update_self]
        · rw [update_of_ne hFb, update_of_ne hFb]
    · simp only [Heap.live_set, Heap.live_alloc, hLive]
      ext b
      simp
      tauto
    · refine rel_append (parts_congr hParts ?_) (.cons ?_ .nil)
      · intro b hMem ys hPart
        have hNeFb : b ≠ fb := by
          rintro rfl
          exact hNew hMem
        simp only [Heap.node_set, Heap.node_alloc]
        by_cases hLast : b = last
        · subst hLast
          rw [update_self, update_of_ne hNeFb]
          exact hPart
        · rw [update_of_ne hLast, update_of_ne hNeFb]
          exact hPart
      · simp only [Heap.node_set, Heap.node_alloc]
        rw [update_of_ne hNe.symm, update_self]
        exact ⟨rfl, Nat.zero_le _⟩
    · simp only [Heap.node_set, Heap.node_alloc]
      rw [update_of_ne hNe.symm, update_self]
      decide

/- The last block has room when no new one is needed. -/
theorem room_of_needsBlock (hPending : Pending fq items) :
    (fq.needsBlock = some true ∨ fq.needsBlock = some false ∧ Room fq items) := by
  rcases hPending with ⟨bs, xss, hLayout, hFull, rfl⟩
  rcases eq_nil_or_concat bs with rfl | ⟨init, last, rfl⟩
  · left
    unfold FreeQ.needsBlock
    rw [hLayout.queue.tail]
    rfl
  · rw [concat_eq_append] at hLayout
    have hTail : fq.blockLast = some last := by
      rw [hLayout.queue.tail, getLast?_append]
      rfl
    have hLastLive : last ∈ fq.heap.live := by
      rw [hLayout.live]
      simp
    rcases eq_nil_or_concat xss with rfl | ⟨front, xs, rfl⟩
    · exact absurd (List.forall₂_nil_right_iff.mp hLayout.parts) (by simp)
    · rw [concat_eq_append] at *
      have hPart := (List.forall₂_reverse_iff.mpr hLayout.parts)
      rw [reverse_append, reverse_append] at hPart
      have hLast := (List.forall₂_cons.mp hPart).1
      unfold FreeQ.needsBlock
      rw [hTail]
      simp only [bind_eq_bind]
      rw [Heap.read_of_mem hLastLive, bind_some]
      by_cases hEnd : (fq.heap.node last).stop = itemBlockCount
      · left
        rw [decide_eq_true hEnd]
      · right
        rw [decide_eq_false hEnd]
        refine ⟨rfl, init, last, front, xs, hLayout, ?_, by simp, ?_⟩
        · intro ys hMem
          exact hFull ys (by simp [hMem])
        · exact Nat.lt_of_le_of_ne hLast.2 hEnd

/- The new item is the last one. -/
theorem write_pending (item : Item) (hRoom : Room fq items) :
    ∃ fq', fq.write item = some fq' ∧
      Pending fq' (items ++ [item]) ∧ Same fq fq' ∧
      fq'.freed = fq.freed ∧
      fq'.count = CInt.wrap (fq.count + 1) ∧
      fq'.memTotal = (fq.memTotal + item.size) % sizeMax := by
  rcases hRoom with ⟨bs, b, xss, xs, ⟨hQueue, hLive, hParts⟩, hFull, rfl, hStop⟩
  have hTail : fq.blockLast = some b := by
    rw [hQueue.tail, getLast?_append]
    rfl
  have hIn : b ∈ fq.heap.live := by
    rw [hLive]
    simp
  have hOut : b ∉ bs := by
    have hNodup := hQueue.nodup
    rw [nodup_append] at hNodup
    intro hMem
    exact hNodup.2.2 b hMem b (by simp) rfl
  have hSplit := List.forall₂_reverse_iff.mpr hParts
  rw [reverse_append, reverse_append] at hSplit
  rcases List.forall₂_cons.mp hSplit with ⟨hPart, hInit⟩
  unfold FreeQ.write
  rw [hTail]
  simp only [bind_eq_bind, bind_some]
  rw [Heap.read_of_mem hIn, bind_some, if_pos hStop]
  refine ⟨_, rfl, ⟨bs ++ [b], xss ++ [xs ++ [item]],
    ⟨?_, ?_, ?_⟩, ?_, by simp⟩, ⟨rfl, rfl, rfl, rfl⟩, rfl, rfl, rfl⟩
  · simp only [Heap.node_set]
    rw [← hTail]
    refine hQueue.congr fun b' hMem => ?_
    by_cases hSame : b' = b
    · subst hSame
      rw [update_self]
    · rw [update_of_ne hSame]
  · simp only [Heap.live_set]
    exact hLive
  · refine rel_append (parts_congr (List.forall₂_reverse_iff.mp hInit) ?_) (.cons ?_ .nil)
    · intro b' hMem ys hOld
      simp only [Heap.node_set]
      rw [update_of_ne (by rintro rfl; exact hOut hMem)]
      exact hOld
    · simp only [Heap.node_set, update_self]
      exact ⟨hPart.1.concat item, hStop⟩
  · intro ys hMem
    rcases mem_append.mp hMem with hMem | hMem
    · exact hFull ys hMem
    · obtain rfl := mem_singleton.mp hMem
      simp

/- An item was added, and the limits hold again. -/
def Adds (fq : FreeQ) (items : List Item) (item : Item) (fq' : FreeQ) (rest : List Item) : Prop :=
  Holds fq' rest ∧ Same fq fq' ∧
    fq'.freed ++ rest = fq.freed ++ (items ++ [item]) ∧
    rest.length ≤ items.length + 1 ∧
    fq'.count ≤ fq'.countMax ∧ fq'.memTotal ≤ fq'.memMax

/- An item that is added, with the counts it changes -/
theorem write_holds (item : Item) (hRoom : Room fq items)
    (hCountEq : fq.count = items.length) (hTotal : fq.memTotal = total items)
    (hCount : fq.count < CInt.intMax)
    (hSize : fq.memTotal + item.size < sizeMax) :
    ∃ fq', fq.write item = some fq' ∧ Holds fq' (items ++ [item]) ∧
      Same fq fq' ∧ fq'.freed = fq.freed := by
  rcases write_pending item hRoom with ⟨fq₁, hWrite, hPending, hSame, hFreed, hCount₁, hMem₁⟩
  refine ⟨fq₁, hWrite, ⟨hPending, ?_, ?_, ?_, ?_⟩, hSame, hFreed⟩
  · unfold CInt.intMax at hCount
    rw [hCount₁, CInt.wrap_of_inRange, hCountEq, length_append, length_singleton]
    · rfl
    · unfold CInt.InRange
      omega
  · rw [hMem₁, Nat.mod_eq_of_lt hSize, hTotal, total_append]
    rfl
  · rw [length_append, length_singleton]
    omega
  · rw [total_append, ← hTotal]
    exact hSize

theorem write_flush_spec (item : Item) (hRoom : Room fq items)
    (hCountEq : fq.count = items.length) (hTotal : fq.memTotal = total items)
    (hCount : fq.count < CInt.intMax) (hSize : fq.memTotal + item.size < sizeMax)
    (hFuel : items.length + 1 < fuel) (hKind : fq.postponed = false)
    (hLimit : 0 ≤ fq.countMax) :
    ∃ fq' rest,
      ((fq.write item).bind fun fq => flushNolock fuel fq) =
        some fq' ∧
      Adds fq items item fq' rest := by
  rcases write_holds item hRoom hCountEq hTotal hCount hSize with
    ⟨fq₁, hWrite, hHolds, hSame, hFreed⟩
  rcases flushNolock_spec hHolds (by rwa [length_append, length_singleton])
    (hSame.postponed.trans hKind) (by rwa [hSame.countMax]) with ⟨fq', rest, hFlush, hFrees, hEnd⟩
  refine ⟨fq', rest, ?_, hFrees.1, hSame.trans hFrees.2.1, ?_, ?_, hEnd⟩
  · rw [hWrite]
    exact hFlush
  · rw [hFrees.log, hFreed]
  · simpa using hFrees.length_le

/-
  The call that adds an item, when a block is there for it or
  nothing is pending
-/
theorem ptrAdd_spec (ptr : Nat) (freeFunc : Option Nat) (size : Nat)
    {memory : Option Nat} (hHolds : Holds fq items)
    (hFresh : ∀ fb, memory = some fb → fb ∉ fq.heap.live)
    (hMemory : memory = none → fq.needsBlock = some true →
      fq.blocks = none) (hCount : fq.count < CInt.intMax) (hSize : fq.memTotal + size < sizeMax)
    (hFuel : items.length + 1 < fuel) (hBypass : fq.bypass = false)
    (hKind : fq.postponed = false) (hLimit : 0 ≤ fq.countMax)
    (hIn : fq.count ≤ fq.countMax) (hMem : fq.memTotal ≤ fq.memMax) :
    ∃ fq' rest,
      ptrAdd fuel fq (some ptr) freeFunc size memory = some fq' ∧
      Adds fq items ⟨ptr, freeFunc, size⟩ fq' rest := by
  unfold ptrAdd
  simp only [hBypass, Bool.false_eq_true, if_false, bind_eq_bind]
  rcases room_of_needsBlock hHolds.pending with hNeeds | ⟨hNeeds, hRoom⟩
  · rw [hNeeds]
    simp only [bind_some, if_true]
    cases memory with
    | some fb =>
      rcases blockAppend_room hHolds.pending (hFresh fb rfl) with
        ⟨fq₁, hAppend, hRoom, hSame, hFreed, hCount₁, hMem₁⟩
      rw [hAppend]
      rcases write_flush_spec ⟨ptr, freeFunc, size⟩ hRoom
        (hCount₁.trans hHolds.count) (hMem₁.trans hHolds.memTotal)
        (by rwa [hCount₁]) (by rwa [hMem₁]) hFuel
        (hSame.postponed.trans hKind) (by rwa [hSame.countMax]) with
        ⟨fq', rest, hWrite, hHolds', hSame', hLog, hRest⟩
      refine ⟨fq', rest, hWrite, hHolds', hSame.trans hSame', ?_, hRest⟩
      rw [hLog, hFreed]
    | none =>
      have hNil := hHolds.pending.nil_iff.mp (hMemory rfl hNeeds)
      subst hNil
      refine ⟨fq.freeDo ⟨ptr, freeFunc, size⟩, [], ?_,
        hHolds.congr rfl rfl rfl rfl rfl, ⟨rfl, rfl, rfl, rfl⟩, ?_, Nat.zero_le _, hIn, hMem⟩
      · simp [blockAppend, hKind]
      · simp [FreeQ.freeDo]
  · rw [hNeeds]
    exact write_flush_spec _ hRoom hHolds.count hHolds.memTotal hCount hSize hFuel hKind hLimit

---
-- Runs
---

/- A limit on the number, where a negative one is none -/
def InCount (fq : FreeQ) : Prop :=
  fq.countMax < 0 ∨ fq.count ≤ fq.countMax

/-
  Each pointer that was added was given to its function once,
  in the order in which they were added, or is pending.
-/
def Correct (st : State) : Prop :=
  ∃ items, Pending st.fq items ∧
    st.fq.freed ++ items = st.added ∧
    st.fq.count = items.length ∧
    st.fq.memTotal = total items ∧
    InCount st.fq ∧ st.fq.memTotal ≤ st.fq.memMax ∧
    (st.gone = true → items = [])

/-
  The queue is still there, and the values are ones that the
  arguments can have.
-/
def Allowed (st : State) : Op → Prop
  | .ptrAdd _ _ size memory =>
    st.gone = false ∧ size < sizeMax ∧
      ∀ fb, memory = some fb → fb ∉ st.fq.heap.live
  | .countMaxSet count => st.gone = false ∧ CInt.InRange count
  | .memMaxSet mem => st.gone = false ∧ mem < sizeMax
  | .reduce count => st.gone = false ∧ CInt.InRange count
  | .clear => st.gone = false
  | .free => st.gone = false

/-
  No limit on the number is negative; the counts have room for
  an added item; and while items are pending, a block that is
  needed for it is there.
-/
def Meets (st : State) : Op → Prop
  | .ptrAdd (some _) _ size memory =>
    st.fq.count < CInt.intMax ∧ st.fq.memTotal + size < sizeMax ∧
      (memory = none → st.fq.needsBlock = some true →
        st.fq.blocks = none)
  | .countMaxSet count => 0 ≤ count
  | _ => True

/- What holds with `n` calls left. -/
structure Inv (fuel n : Nat) (st : State) : Prop where
  kind : st.fq.postponed = false
  bypass : st.fq.bypass = false
  limit : 0 ≤ st.fq.countMax
  inCount : st.fq.count ≤ st.fq.countMax
  inMem : st.fq.memTotal ≤ st.fq.memMax
  items : ∃ items, Holds st.fq items ∧
    st.fq.freed ++ items = st.added ∧
    (st.gone = true → items = []) ∧ items.length + n < fuel

variable {n : Nat} {st : State}

theorem Inv.correct (hInv : Inv fuel n st) : Correct st := by
  rcases hInv.items with ⟨items, hHolds, hAdded, hGone, -⟩
  exact ⟨items, hHolds.pending, hAdded, hHolds.count,
    hHolds.memTotal, Or.inr hInv.inCount, hInv.inMem, hGone⟩

/- A queue with the same limits and fewer items -/
theorem Frees.inv {gone : Bool} (hInv : Inv fuel (n + 1) st)
    (hHolds : Holds st.fq items) (hAdded : st.fq.freed ++ items = st.added)
    (hFuel : items.length + (n + 1) < fuel) (hFrees : Frees st.fq items fq' rest)
    (hGone : gone = true → rest = []) : Inv fuel n ⟨fq', gone, st.added⟩ := by
  have hLength := hFrees.length_le
  have hTotal := hFrees.total_le
  have hSame := hFrees.2.1
  have hNew := hFrees.1
  refine ⟨hSame.postponed.trans hInv.kind,
    hSame.bypass.trans hInv.bypass, ?_, ?_, ?_, rest, hNew, ?_, hGone, by omega⟩
  · simpa only [hSame.countMax] using hInv.limit
  · have hOld := hInv.inCount
    rw [hHolds.count] at hOld
    simp only [hSame.countMax, hNew.count]
    omega
  · have hOld := hInv.inMem
    rw [hHolds.memTotal] at hOld
    simp only [hSame.memMax, hNew.memTotal]
    omega
  · exact hFrees.log.trans hAdded

/- A queue with new limits, after its flush -/
theorem inv_of_flush (hHolds : Holds fq items) (hFreed : fq.freed = st.fq.freed)
    (hAdded : st.fq.freed ++ items = st.added) (hFuel : items.length + (n + 1) < fuel)
    (hKind : fq.postponed = false) (hBypass : fq.bypass = false)
    (hLimit : 0 ≤ fq.countMax) :
    ∃ fq', flushNolock fuel fq = some fq' ∧ Inv fuel n ⟨fq', false, st.added⟩ := by
  have hEnough : items.length < fuel := by omega
  rcases flushNolock_spec hHolds hEnough hKind hLimit with ⟨fq', rest, hFlush, hFrees, hCount, hMem⟩
  have hLength := hFrees.length_le
  have hSame := hFrees.2.1
  refine ⟨fq', hFlush, hSame.postponed.trans hKind, hSame.bypass.trans hBypass, ?_, hCount, hMem,
    rest, hFrees.1, ?_, by simp, by omega⟩
  · simpa only [hSame.countMax] using hLimit
  · rw [hFrees.log, hFreed]
    exact hAdded

/- A call that meets the condition keeps the invariant. -/
theorem call_inv {op : Op} (hInv : Inv fuel (n + 1) st)
    (hAllowed : Allowed st op) (hMeets : Meets st op) :
    ∃ fq', call fuel st.fq op = some fq' ∧ Inv fuel n ⟨fq',
      decide (op = .free), st.added ++ op.item.toList⟩ := by
  rcases hInv.items with ⟨items, hHolds, hAdded, -, hFuel⟩
  have hEnough : items.length < fuel := by omega
  have hNone : st.added ++ [] = st.added := append_nil _
  cases op with
  | ptrAdd ptr freeFunc size memory =>
    cases ptr with
    | none =>
      refine ⟨st.fq, rfl, ?_⟩
      have hSame : Inv fuel n ⟨st.fq, false, st.added⟩ :=
        Frees.inv hInv hHolds hAdded hFuel (.refl hHolds) (by simp)
      rw [← hNone] at hSame
      exact hSame
    | some ptr =>
      have hEnough : items.length + 1 < fuel := by omega
      rcases hMeets with ⟨hCount, hSize, hMemory⟩
      rcases ptrAdd_spec ptr freeFunc size hHolds hAllowed.2.2
        hMemory hCount hSize hEnough hInv.bypass hInv.kind hInv.limit hInv.inCount hInv.inMem with
        ⟨fq', rest, hAdd, hNew, hSame, hLog, hLength, hInCount, hInMem⟩
      refine ⟨fq', hAdd, hSame.postponed.trans hInv.kind,
        hSame.bypass.trans hInv.bypass, ?_, hInCount, hInMem, rest, hNew, ?_, by simp, by omega⟩
      · simpa only [hSame.countMax] using hInv.limit
      · rw [← hAdded, append_assoc]
        exact hLog
  | countMaxSet count =>
    have hHolds' : Holds { st.fq with
        bypass := false
        countMax := count } items := hHolds.congr rfl rfl rfl rfl rfl
    rcases inv_of_flush (n := n) hHolds'
      rfl hAdded hFuel hInv.kind rfl hMeets with ⟨fq', hFlush, hNew⟩
    rw [← hNone] at hNew
    refine ⟨fq', ?_, hNew⟩
    show countMaxSet fuel st.fq count = some fq'
    have hCount : (if count < 0 then -1 else count) = count := if_neg (Int.not_lt.mpr hMeets)
    unfold countMaxSet
    rw [if_neg (by simp [hInv.kind]), hCount]
    exact hFlush
  | memMaxSet mem =>
    have hHolds' : Holds { st.fq with
        bypass := false
        memMax := mem } items := hHolds.congr rfl rfl rfl rfl rfl
    rcases inv_of_flush (n := n) hHolds'
      rfl hAdded hFuel hInv.kind rfl hInv.limit with ⟨fq', hFlush, hNew⟩
    rw [← hNone] at hNew
    refine ⟨fq', ?_, hNew⟩
    show memMaxSet fuel st.fq mem = some fq'
    unfold memMaxSet
    rw [if_neg (by simp [hInv.kind])]
    exact hFlush
  | reduce count =>
    rcases reduceLoop_spec count.toNat hHolds with ⟨fq', rest, hReduce, hFrees⟩
    have hNew : Inv fuel n ⟨fq', false, st.added⟩ :=
      Frees.inv hInv hHolds hAdded hFuel hFrees (by simp)
    rw [← hNone] at hNew
    exact ⟨fq', hReduce, hNew⟩
  | clear =>
    rcases clear_spec hHolds hEnough with ⟨fq', hClear, hFrees⟩
    have hNew : Inv fuel n ⟨fq', false, st.added⟩ :=
      Frees.inv hInv hHolds hAdded hFuel hFrees (by simp)
    rw [← hNone] at hNew
    exact ⟨fq', hClear, hNew⟩
  | free =>
    rcases clear_spec hHolds hEnough with ⟨fq', hClear, hFrees⟩
    have hNew : Inv fuel n ⟨fq', true, st.added⟩ :=
      Frees.inv hInv hHolds hAdded hFuel hFrees (fun _ => rfl)
    rw [← hNone] at hNew
    exact ⟨fq', hClear, hNew⟩

theorem Allowed.there {op : Op} (hAllowed : Allowed st op) : st.gone = false := by
  cases op with
  | ptrAdd ptr freeFunc size memory => exact hAllowed.1
  | countMaxSet count => exact hAllowed.1
  | memMaxSet mem => exact hAllowed.1
  | reduce count => exact hAllowed.1
  | clear => exact hAllowed
  | free => exact hAllowed

theorem step_inv {op : Op} (hInv : Inv fuel (n + 1) st)
    (hOk : Allowed st op ∧ Meets st op) : ∃ st', step fuel st op = some st' ∧ Inv fuel n st' := by
  rcases call_inv hInv hOk.1 hOk.2 with ⟨fq', hCall, hNew⟩
  refine ⟨_, ?_, hNew⟩
  unfold step
  rw [if_neg (by simp [hOk.1.there]), hCall]
  rfl

/-
  From limits that are not negative, every run whose calls
  meet the condition ends, and its queue is correct.
-/
theorem freeq_correct {fuel : Nat} {totalMax : Int} (memMax : Nat)
    {ops : List Op} (hLimit : 0 ≤ totalMax) (hFuel : ops.length < fuel)
    (hOps : Runs.Guarded (step fuel) (fun st op => Allowed st op ∧
    Meets st op) (State.start totalMax memMax) ops) :
    ∃ st, Runs.run (step fuel) (State.start totalMax memMax) ops =
        some st ∧ Correct st := by
  rcases Runs.run_of_guarded_left (Inv fuel) (fun n st op hInv hOk =>
    step_inv hInv hOk) ⟨rfl, rfl, hLimit, hLimit, Nat.zero_le _, [],
    ⟨pending_start totalMax memMax, rfl, rfl, by decide, by decide⟩,
    rfl, by simp, by
        rw [length_nil, Nat.zero_add]
        exact hFuel⟩ hOps with ⟨st, hRun, hInv⟩
  exact ⟨st, hRun, hInv.correct⟩

/- Two pointers, the first of which makes room -/
def sampleOps : List Op :=
  [.countMaxSet 1, .ptrAdd (some 64) none 8 (some 4096),
    .ptrAdd (some 80) (some 7) 16 none, .free]

theorem freeq_correct_sample :
    ∃ st, Runs.run (step 5) (State.start 16384 1048576) sampleOps =
        some st ∧ Correct st :=
  freeq_correct 1048576 (by decide) (by decide) (by
    refine ⟨⟨⟨rfl, by decide⟩, show (0 : Int) ≤ 1 by decide⟩,
      fun st₁ hFirst => ?_⟩
    obtain rfl := some.inj hFirst
    refine ⟨⟨⟨rfl, by decide, fun fb _ => Finset.notMem_empty fb⟩,
      show (0 : Int) < _ by decide, show 0 + 8 < _ by decide,
      fun hNone => (nomatch hNone)⟩, fun st₂ hSecond => ?_⟩
    obtain rfl := some.inj hSecond
    refine ⟨⟨⟨rfl, by decide, fun fb hFb => (nomatch hFb)⟩,
      show (1 : Int) < _ by decide, show 8 + 16 < _ by decide,
      fun _ hNeeds => (nomatch hNeeds)⟩, fun st₃ hThird => ?_⟩
    obtain rfl := some.inj hThird
    exact ⟨⟨rfl, trivial⟩, fun _ _ => trivial⟩)

/- On a queue that has no items the loop does not end. -/
theorem processWhile_empty (p : FreeQ → Prop) [DecidablePred p]
    (hEmpty : fq.blocks = none) (hMore : p fq) (fuel : Nat) : processWhile p fuel fq = none := by
  induction fuel with
  | zero => rfl
  | succ fuel ih =>
    unfold processWhile process
    rw [if_pos hMore, hEmpty]
    exact ih

/- With no limit on the number the first flush does not end. -/
theorem unlimited_never_ends :
    Allowed (State.start 16384 1048576) (.countMaxSet (-1)) ∧
      ∀ fuel, step fuel (State.start 16384 1048576)
        (.countMaxSet (-1)) = none := by
  refine ⟨⟨rfl, by decide⟩, fun fuel => ?_⟩
  have hEmpty : (newDefault (-1) 1048576).blocks = none := rfl
  have hFlush := processWhile_empty FreeQ.Over hEmpty (by decide) fuel
  unfold step call countMaxSet flushNolock
  simp only [State.start, newDefault, Bool.false_eq_true, if_false]
  exact congrArg (fun fq => Option.bind fq _) hFlush

end Efl.Eina.Freeq
