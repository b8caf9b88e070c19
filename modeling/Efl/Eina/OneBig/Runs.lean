import Efl.Eina.OneBig.Model
import Efl.Lib.Chain
import Mathlib.Data.List.Perm.Basic

/-
  What a pool with one big block keeps, over all runs.

  A slot of an item of 4 bytes or fewer is shorter than the
  link that is written to it when it is freed.

  Main declarations:
    * `Inv`
    * `Consistent`, `Untouched`
    * `malloc_inv`, `free_inv`
    * `items_correct`
-/

---
-- Blocks
---

namespace Efl.Eina.OneBig

open List

/- Two blocks have no byte in common. -/
def Apart (p m q n : Nat) : Prop :=
  p + m ≤ q ∨ q + n ≤ p

variable {p q : Nat}

theorem Apart.symm {m n : Nat} (hApart : Apart p m q n) : Apart q n p m := Or.symm hApart

instance (n : Nat) : Std.Symm fun p q => Apart p n q n := ⟨fun _ _ hApart => hApart.symm⟩

/- The slots of the big block that were handed out -/
def slots (cfg : Config) (b served : Nat) : List Nat :=
  (List.range served).map fun k => b + k * cfg.itemSize

variable {b : Nat}

theorem mem_slots {cfg : Config} {served : Nat}
    (hMem : p ∈ slots cfg b served) : ∃ k < served, p = b + k * cfg.itemSize := by
  rcases mem_map.mp hMem with ⟨k, hRange, rfl⟩
  exact ⟨k, mem_range.mp hRange, rfl⟩

theorem slots_apart (cfg : Config) (b served : Nat) :
    (slots cfg b served).Pairwise fun p q =>
      Apart p cfg.itemSize q cfg.itemSize := by
  unfold slots
  rw [pairwise_map]
  refine List.pairwise_lt_range.imp fun {i j} hLess => ?_
  have hMul : (i + 1) * cfg.itemSize ≤ j * cfg.itemSize := Nat.mul_le_mul_right _ hLess
  rw [Nat.succ_mul] at hMul
  left
  omega

/- A slot lies inside of the big block. -/
theorem slot_inside {cfg : Config} {served : Nat}
    (hServed : served ≤ cfg.max) (hMem : p ∈ slots cfg b served) :
    b ≤ p ∧ p + cfg.itemSize ≤ b + cfg.itemSize * cfg.max := by
  rcases mem_slots hMem with ⟨k, hk, rfl⟩
  have hMul : (k + 1) * cfg.itemSize ≤ cfg.max * cfg.itemSize := Nat.mul_le_mul_right _ (by omega)
  rw [Nat.succ_mul, Nat.mul_comm cfg.max] at hMul
  omega

/-
  The slots that are used and those that were freed, with
  respect to the blocks of the other items
-/
def InSlots (cfg : Config) (pool : Pool) (used overs : List Nat) : Prop :=
  match pool.base with
  | none => used = [] ∧ pool.served = 0
  | some b =>
    0 < b ∧ b + cfg.itemSize * cfg.max ≤ 256 ^ wordSize ∧
      pool.served ≤ cfg.max ∧
      used.Perm (slots cfg b pool.served) ∧
      ∀ p ∈ overs,
        Apart b (cfg.itemSize * cfg.max) p cfg.overSize

/- The order of the slots does not matter. -/
theorem InSlots.congr {cfg : Config} {pool pool' : Pool}
    {used used' overs : List Nat} (hSlots : InSlots cfg pool used overs)
    (hBase : pool'.base = pool.base)
    (hServed : pool'.served = pool.served) (hPerm : used'.Perm used) :
    InSlots cfg pool' used' overs := by
  unfold InSlots at hSlots ⊢
  rw [hBase, hServed]
  cases hOld : pool.base with
  | none =>
    rw [hOld] at hSlots
    rw [hSlots.1, perm_nil] at hPerm
    exact ⟨hPerm, hSlots.2⟩
  | some b =>
    rw [hOld] at hSlots
    exact ⟨hSlots.1, hSlots.2.1, hSlots.2.2.1, hPerm.trans hSlots.2.2.2.1, hSlots.2.2.2.2⟩

/- There are not more slots than the maximum. -/
theorem InSlots.length_le {cfg : Config} {pool : Pool}
    {used overs : List Nat} (hSlots : InSlots cfg pool used overs) : used.length ≤ cfg.max := by
  unfold InSlots at hSlots
  cases hBase : pool.base with
  | none =>
    rw [hBase] at hSlots
    rw [hSlots.1]
    exact Nat.zero_le _
  | some b =>
    rw [hBase] at hSlots
    rw [hSlots.2.2.2.1.length_eq]
    unfold OneBig.slots
    rw [length_map, length_range]
    exact hSlots.2.2.1

/- What is left of the word when NULL is 0 -/
def linkAt (bytes : Nat → Nat) (a : Nat) : Option Nat :=
  ofWord (Words.load bytes a wordSize)

/-
  The items of the callers are slots and items with blocks of
  their own; the slots that were freed are linked.
-/
structure Inv (cfg : Config) (st : State) (ins frees overs : List Nat) : Prop where
  live : st.live.Perm (ins ++ overs)
  slots : InSlots cfg st.pool (ins ++ frees) overs
  chain : Chain.Seg (linkAt st.pool.bytes) st.pool.empty frees
  wide : frees ≠ [] → wordSize ≤ cfg.itemSize
  list : Inlist.Holds st.pool.links st.pool.overList
    (overs.map (· + cfg.offsetToItemInlist))
  apart : overs.Pairwise fun p q =>
    Apart p cfg.overSize q cfg.overSize
  usage : st.pool.usage = ins.length
  overCount : st.pool.overCount = overs.length
  few : overs.length ≤ CInt.intMax

/- The sizes are those that `eina_one_big_init` computes. -/
structure Config.Valid (cfg : Config) : Prop where
  itemSize : 0 < cfg.itemSize
  max : 0 < cfg.max
  maxInt : cfg.max ≤ CInt.intMax
  offset : cfg.itemSize ≤ cfg.offsetToItemInlist
  big : cfg.itemSize * cfg.max ≤ CInt.intMax

/- All slots and other items have no byte in common. -/
theorem Inv.apart_all {cfg : Config} {st : State} {ins frees overs : List Nat}
    (hValid : cfg.Valid) (hInv : Inv cfg st ins frees overs) :
    (ins ++ frees ++ overs).Pairwise fun p q =>
      Apart p cfg.itemSize q cfg.itemSize := by
  have hOffset := hValid.offset
  rw [pairwise_append]
  refine ⟨?_, hInv.apart.imp fun {p q} hApart => ?_, ?_⟩
  · have hSlots := hInv.slots
    unfold InSlots at hSlots
    cases hBase : st.pool.base with
    | none =>
      rw [hBase] at hSlots
      rw [hSlots.1]
      exact List.Pairwise.nil
    | some b =>
      rw [hBase] at hSlots
      rw [hSlots.2.2.2.1.pairwise_iff fun hApart => hApart.symm]
      exact slots_apart cfg b _
  · unfold Apart Config.overSize at *
    omega
  · intro p hp q hq
    have hSlots := hInv.slots
    unfold InSlots at hSlots
    cases hBase : st.pool.base with
    | none =>
      rw [hBase] at hSlots
      rw [hSlots.1] at hp
      exact absurd hp not_mem_nil
    | some b =>
      rw [hBase] at hSlots
      have hSlot := slot_inside hSlots.2.2.1 (hSlots.2.2.2.1.mem_iff.mp hp)
      have hOver := hSlots.2.2.2.2 q hq
      unfold Apart Config.overSize at *
      omega

/- The items of the callers have no byte in common. -/
theorem Inv.live_apart {cfg : Config} {st : State} {ins frees overs : List Nat}
    (hValid : cfg.Valid) (hInv : Inv cfg st ins frees overs) :
    st.live.Pairwise fun p q =>
      Apart p cfg.itemSize q cfg.itemSize := by
  rw [hInv.live.pairwise_iff fun hApart => hApart.symm]
  exact List.Pairwise.sublist (List.Sublist.append_right (sublist_append_left _ _) _)
    (hInv.apart_all hValid)

---
-- Freed Slots
---

variable {cfg : Config} {st : State} {ins frees overs : List Nat}

theorem Inv.ins_apart_frees (hValid : cfg.Valid)
    (hInv : Inv cfg st ins frees overs) (hLive : p ∈ st.live)
    (hFree : q ∈ frees) : Apart p cfg.itemSize q cfg.itemSize := by
  have hAll := hInv.apart_all hValid
  rw [pairwise_append, pairwise_append] at hAll
  rcases hAll with ⟨⟨-, -, hIns⟩, -, hOvers⟩
  rcases mem_append.mp (hInv.live.mem_iff.mp hLive) with hIn | hOver
  · exact hIns p hIn q hFree
  · exact (hOvers q (by simp [hFree]) p hOver).symm

/- Bytes of other blocks do not matter for the links. -/
theorem Inv.chain_congr {bytes : Nat → Nat}
    (hInv : Inv cfg st ins frees overs) (hSame : ∀ q ∈ frees, ∀ b,
    q ≤ b → b < q + cfg.itemSize → bytes b = st.pool.bytes b) :
    Chain.Seg (linkAt bytes) st.pool.empty frees := by
  refine hInv.chain.congr fun q hMem => ?_
  have hWide := hInv.wide (ne_nil_of_mem hMem)
  unfold linkAt
  rw [Words.load_congr]
  intro b hLow hHigh
  exact hSame q hMem b hLow (by omega)

/- The slots are at addresses that a pointer can have. -/
theorem Inv.empty_word (hValid : cfg.Valid)
    (hInv : Inv cfg st ins frees overs) :
    ofWord (st.pool.empty.getD 0) = st.pool.empty ∧ st.pool.empty.getD 0 < 256 ^ wordSize := by
  cases hEmpty : st.pool.empty with
  | none => exact ⟨rfl, by decide⟩
  | some a =>
    have hHead := hInv.chain.head
    rw [hEmpty] at hHead
    have hMem : a ∈ frees := mem_of_head? hHead.symm
    have hSlots := hInv.slots
    unfold InSlots at hSlots
    cases hBase : st.pool.base with
    | none =>
      rw [hBase] at hSlots
      have hNone := (append_eq_nil_iff.mp hSlots.1).2
      rw [hNone] at hMem
      exact absurd hMem not_mem_nil
    | some b =>
      rw [hBase] at hSlots
      have hSlot := slot_inside hSlots.2.2.1 (hSlots.2.2.2.1.mem_iff.mp (mem_append_right _ hMem))
      have hPos := hValid.itemSize
      refine ⟨?_, ?_⟩
      · unfold ofWord
        rw [Option.getD_some, if_neg (by omega)]
      · rw [Option.getD_some]
        omega

variable {ptr : Nat}

/- A slot is linked in front of the others. -/
theorem Inv.push (hValid : cfg.Valid) (hInv : Inv cfg st ins frees overs)
    (hWide : wordSize ≤ cfg.itemSize) (hLive : ptr ∈ st.live) :
    Chain.Seg (linkAt (Words.store st.pool.bytes ptr wordSize
      (st.pool.empty.getD 0))) (some ptr) (ptr :: frees) := by
  refine ⟨rfl, ?_⟩
  have hWord := hInv.empty_word hValid
  have hHead : linkAt (Words.store st.pool.bytes ptr wordSize
      (st.pool.empty.getD 0)) ptr = st.pool.empty := by
    unfold linkAt
    rw [Words.load_store _ _ hWord.2, hWord.1]
  rw [hHead]
  apply hInv.chain_congr
  intro q hMem b hLow hHigh
  have hApart := hInv.ins_apart_frees hValid hLive hMem
  unfold Apart at hApart
  exact Words.store_of_outside (by omega)

---
-- What Holds of a State
---

open Option Function

/- An address in the big block, when there is one -/
def Inside (cfg : Config) (pool : Pool) (p : Nat) : Prop :=
  match pool.base with
  | none => False
  | some b => b ≤ p ∧ p < b + cfg.itemSize * cfg.max

instance (cfg : Config) (pool : Pool) (p : Nat) : Decidable (Inside cfg pool p) := by
  unfold Inside
  cases pool.base with
  | none => exact inferInstanceAs (Decidable False)
  | some b => exact inferInstanceAs (Decidable (_ ∧ _))

/-
  The items are apart, and the counts are those of the ones
  inside and outside of the big block.
-/
structure Consistent (cfg : Config) (st : State) : Prop where
  apart : st.live.Pairwise fun p q =>
    Apart p cfg.itemSize q cfg.itemSize
  usage : st.pool.usage =
    st.live.countP fun p => decide (Inside cfg st.pool p)
  overCount : st.pool.overCount =
    st.live.countP fun p => decide (¬ Inside cfg st.pool p)

variable (hValid : cfg.Valid)

include hValid

variable (hInv : Inv cfg st ins frees overs)

include hInv

theorem Inv.inside (hIn : p ∈ ins) : Inside cfg st.pool p := by
  have hSlots := hInv.slots
  unfold InSlots at hSlots
  unfold Inside
  cases hBase : st.pool.base with
  | none =>
    rw [hBase] at hSlots
    have hNone := (append_eq_nil_iff.mp hSlots.1).1
    rw [hNone] at hIn
    exact absurd hIn not_mem_nil
  | some b =>
    rw [hBase] at hSlots
    have hSlot := slot_inside hSlots.2.2.1 (hSlots.2.2.2.1.mem_iff.mp (mem_append_left _ hIn))
    have hPos := hValid.itemSize
    exact ⟨hSlot.1, by omega⟩

omit hValid in
theorem Inv.outside
    (hOver : p ∈ overs) : ¬ Inside cfg st.pool p := by
  have hSlots := hInv.slots
  unfold InSlots at hSlots
  unfold Inside
  cases hBase : st.pool.base with
  | none => exact id
  | some b =>
    rw [hBase] at hSlots
    have hApart := hSlots.2.2.2.2 p hOver
    unfold Apart Config.overSize nodeSize at hApart
    simp only
    omega

theorem Inv.consistent : Consistent cfg st := by
  have hIns : ins.countP (fun p => decide (Inside cfg st.pool p)) = ins.length := by
    rw [countP_eq_length]
    exact fun p hp => decide_eq_true (hInv.inside hValid hp)
  have hOvers : overs.countP (fun p => decide (Inside cfg st.pool p)) = 0 := by
    rw [countP_eq_zero]
    intro p hp
    simpa using hInv.outside hp
  have hIns' : ins.countP (fun p => decide (¬ Inside cfg st.pool p)) = 0 := by
    rw [countP_eq_zero]
    intro p hp
    simpa using hInv.inside hValid hp
  have hOvers' : overs.countP (fun p =>
      decide (¬ Inside cfg st.pool p)) = overs.length := by
    rw [countP_eq_length]
    exact fun p hp => decide_eq_true (hInv.outside hp)
  refine ⟨hInv.live_apart hValid, ?_, ?_⟩
  · rw [hInv.live.countP_eq, countP_append, hIns, hOvers, hInv.usage]
    rfl
  · rw [hInv.live.countP_eq, countP_append, hIns', hOvers', hInv.overCount, Nat.zero_add]

/-
  The bytes of the items that the callers keep are not
  changed, and the nodes that are written are not in them.
-/
def Untouched (cfg : Config) (st st' : State) : Prop :=
  ∀ p ∈ st.live, p ∈ st'.live →
    (∀ i < cfg.itemSize,
      st'.pool.bytes (p + i) = st.pool.bytes (p + i)) ∧
    ∀ n, st'.pool.links n ≠ st.pool.links n →
      Apart p cfg.itemSize n nodeSize

/- The nodes of the list are not in items. -/
theorem Inv.node_apart (hLive : p ∈ st.live)
    (hOver : q ∈ overs) :
    Apart p cfg.itemSize (q + cfg.offsetToItemInlist)
      nodeSize := by
  have hOffset := hValid.offset
  rcases mem_append.mp (hInv.live.mem_iff.mp hLive) with hIn | hBoth
  · have hSlots := hInv.slots
    unfold InSlots at hSlots
    cases hBase : st.pool.base with
    | none =>
      rw [hBase] at hSlots
      have hNone := (append_eq_nil_iff.mp hSlots.1).1
      rw [hNone] at hIn
      exact absurd hIn not_mem_nil
    | some b =>
      rw [hBase] at hSlots
      have hSlot := slot_inside hSlots.2.2.1 (hSlots.2.2.2.1.mem_iff.mp (mem_append_left _ hIn))
      have hApart := hSlots.2.2.2.2 q hOver
      unfold Apart Config.overSize at *
      omega
  · by_cases hSame : p = q
    · subst hSame
      unfold Apart
      omega
    · have hApart := hInv.apart.forall hBoth hOver hSame
      unfold Apart Config.overSize at *
      omega

---
-- Calls
---

/- The new blocks are apart from those that are there. -/
def Fresh (cfg : Config) (st : State) (big small : Option Nat) : Prop :=
  (∀ b, st.pool.base = none → big = some b →
    0 < b ∧ b + cfg.itemSize * cfg.max ≤ 256 ^ wordSize ∧
      ∀ p ∈ st.live, ¬ Inside cfg st.pool p →
        Apart b (cfg.itemSize * cfg.max) p cfg.overSize) ∧
  ∀ m, small = some m →
    (∀ b, st.pool.base = some b →
      Apart b (cfg.itemSize * cfg.max) m cfg.overSize) ∧
    ∀ p ∈ st.live, ¬ Inside cfg st.pool p →
      Apart m cfg.overSize p cfg.overSize

/- The call gives an item with a block of its own. -/
def NeedsOver (cfg : Config) (pool : Pool) (big : Option Nat) : Prop :=
  pool.empty = none ∧
    (pool.base.or big = none ∨ cfg.max ≤ pool.served)

/- A slot that was freed is handed out. -/
theorem Inv.pop (big small : Option Nat)
    {a : Nat} (hEmpty : st.pool.empty = some a) :
    ∃ pool' frees',
      malloc cfg st.pool big small = some (pool', some a) ∧
      Inv cfg ⟨pool', a :: st.live⟩ (a :: ins) frees' overs ∧
      pool'.bytes = st.pool.bytes ∧ pool'.links = st.pool.links := by
  have hChain := hInv.chain
  rw [hEmpty] at hChain
  rcases hChain.pop with ⟨rest, rfl, hRest⟩
  have hMove : (ins ++ a :: rest).Perm (a :: ins ++ rest) := perm_middle
  have hCount := hInv.slots.length_le
  rw [length_append, length_cons] at hCount
  refine ⟨{ st.pool with
      empty := linkAt st.pool.bytes a
      usage := CInt.wrap (st.pool.usage + 1) }, rest, ?_,
    ⟨?_, ?_, ?_, ?_, hInv.list, hInv.apart, ?_, hInv.overCount, hInv.few⟩, rfl, rfl⟩
  · unfold malloc trashPop
    simp only [hEmpty, isSome_some, if_true, linkAt]
  · exact hInv.live.cons a
  · exact hInv.slots.congr rfl rfl hMove.symm
  · dsimp only
    exact hRest
  · exact fun _ => hInv.wide (by simp)
  · have hMax := hValid.maxInt
    unfold CInt.intMax at hMax
    simp only [hInv.usage]
    rw [CInt.wrap_of_inRange, length_cons]
    · rfl
    · unfold CInt.InRange
      omega

variable {big : Option Nat}

/- The big block is made, as yet without used slots. -/
theorem Inv.takeBase
    (hBig : ∀ b, st.pool.base = none → big = some b → 0 < b ∧
      b + cfg.itemSize * cfg.max ≤ 256 ^ wordSize ∧ ∀ p ∈ overs,
      Apart b (cfg.itemSize * cfg.max) p cfg.overSize) :
    takeBase cfg st.pool big =
        some { st.pool with base := st.pool.base.or big } ∧
      Inv cfg ⟨{ st.pool with base := st.pool.base.or big }, st.live⟩ ins frees overs := by
  have hSlots := hInv.slots
  unfold InSlots at hSlots
  have hInt : ¬ CInt.intMax < cfg.itemSize * cfg.max := Int.not_lt.mpr hValid.big
  refine ⟨?_, hInv.live, ?_, hInv.chain, hInv.wide, hInv.list,
    hInv.apart, hInv.usage, hInv.overCount, hInv.few⟩
  · unfold OneBig.takeBase Config.bigSize
    rw [if_neg (by exact_mod_cast hInt)]
    cases hBase : st.pool.base with
    | none => rfl
    | some b =>
      simp only [some_or]
      rw [← hBase]
  · unfold InSlots
    cases hBase : st.pool.base with
    | some b =>
      rw [hBase] at hSlots
      exact hSlots
    | none =>
      rw [hBase] at hSlots
      rcases hSlots with ⟨hNone, hServed⟩
      rw [none_or]
      cases hNew : big with
      | none => exact ⟨hNone, hServed⟩
      | some b =>
        rcases hBig b hBase hNew with ⟨hPos, hEnd, hApart⟩
        simp only [hServed, hNone]
        exact ⟨hPos, hEnd, Nat.zero_le _, List.Perm.nil, hApart⟩

/- The next slot of the big block is handed out. -/
theorem Inv.bump
    (hBase : st.pool.base = some b) (hRoom : st.pool.served < cfg.max) :
    Inv cfg ⟨{ st.pool with
          served := st.pool.served + 1
          usage := CInt.wrap (st.pool.usage + 1) }, (b + st.pool.served * cfg.itemSize) :: st.live⟩
      ((b + st.pool.served * cfg.itemSize) :: ins) frees overs := by
  have hSlots := hInv.slots
  unfold InSlots at hSlots
  rw [hBase] at hSlots
  rcases hSlots with ⟨hPos, hEnd, -, hPerm, hApart⟩
  have hLength := hPerm.length_eq
  unfold OneBig.slots at hLength
  rw [length_append, length_map, length_range] at hLength
  refine ⟨hInv.live.cons _, ?_, hInv.chain, hInv.wide, hInv.list,
    hInv.apart, ?_, hInv.overCount, hInv.few⟩
  · have hMore : OneBig.slots cfg b (st.pool.served + 1) =
        OneBig.slots cfg b st.pool.served ++ [b + st.pool.served * cfg.itemSize] := by
      unfold OneBig.slots
      rw [range_succ, map_append, map_singleton]
    unfold InSlots
    simp only [hBase, hMore]
    exact ⟨hPos, hEnd, hRoom, (hPerm.cons _).trans (perm_append_singleton _ _).symm, hApart⟩
  · have hMax := hValid.maxInt
    unfold CInt.intMax at hMax
    simp only [hInv.usage]
    rw [CInt.wrap_of_inRange, length_cons]
    · rfl
    · unfold CInt.InRange
      omega

/- One more item has a block of its own. -/
omit hValid in
omit hInv in
theorem InSlots.add {pool : Pool} {used : List Nat} {m : Nat} (hSlots : InSlots cfg pool used overs)
    (hApart : ∀ b, pool.base = some b →
      Apart b (cfg.itemSize * cfg.max) m cfg.overSize) : InSlots cfg pool used (overs ++ [m]) := by
  unfold InSlots at hSlots ⊢
  cases hBase : pool.base with
  | none =>
    rw [hBase] at hSlots
    exact hSlots
  | some b =>
    rw [hBase] at hSlots
    refine ⟨hSlots.1, hSlots.2.1, hSlots.2.2.1, hSlots.2.2.2.1, fun p hp => ?_⟩
    rcases mem_append.mp hp with hp | hp
    · exact hSlots.2.2.2.2 p hp
    · obtain rfl := mem_singleton.mp hp
      exact hApart b hBase

variable {small : Option Nat}

/- An item gets a block of its own, when there is one. -/
omit hValid in
theorem Inv.retry (hFew : st.pool.overCount < CInt.intMax)
    (hSmall : ∀ m, small = some m → (∀ b, st.pool.base = some b →
    Apart b (cfg.itemSize * cfg.max) m cfg.overSize) ∧ ∀ p ∈ overs,
    Apart m cfg.overSize p cfg.overSize) :
    ∃ pool' overs',
      retrySmaller cfg st.pool small = some (pool', small) ∧
      Inv cfg ⟨pool', small.toList ++ st.live⟩ ins frees overs' ∧
      pool'.bytes = st.pool.bytes ∧
      ∀ n, pool'.links n ≠ st.pool.links n → ∃ q ∈ overs', n = q + cfg.offsetToItemInlist := by
  cases small with
  | none =>
    exact ⟨st.pool, overs, rfl, hInv, rfl, fun n hNe => absurd rfl hNe⟩
  | some m =>
    rcases hSmall m rfl with ⟨hBlock, hOvers⟩
    have hNew : m + cfg.offsetToItemInlist ∉ overs.map (· + cfg.offsetToItemInlist) := by
      intro hMem
      rcases mem_map.mp hMem with ⟨p, hp, hEq⟩
      have hApart := hOvers p hp
      unfold Apart Config.overSize nodeSize at hApart
      omega
    have hList := hInv.list.update ⟨none, none, none⟩ hNew
    rcases Inlist.append_holds st.pool.overCount.toNat hList hNew with
      ⟨links, list, hAppend, hHolds⟩
    refine ⟨{ st.pool with
        overCount := CInt.wrap (st.pool.overCount + 1)
        links := links
        overList := some list }, overs ++ [m], ?_,
      ⟨?_, ?_, hInv.chain, hInv.wide, ?_, ?_, hInv.usage, ?_, ?_⟩, rfl, ?_⟩
    · unfold retrySmaller
      simp only [hAppend, bind_eq_bind, bind_some]
    · rw [← append_assoc]
      exact (hInv.live.cons m).trans (perm_append_singleton m _).symm
    · exact (hInv.slots.add hBlock).congr rfl rfl (List.Perm.refl _)
    · rw [map_append]
      exact hHolds
    · rw [pairwise_append]
      refine ⟨hInv.apart, pairwise_singleton _ _, ?_⟩
      intro p hp q hq
      obtain rfl := mem_singleton.mp hq
      exact (hOvers p hp).symm
    · unfold CInt.intMax at hFew
      rw [hInv.overCount] at hFew
      simp only [hInv.overCount]
      rw [CInt.wrap_of_inRange, length_append]
      · rfl
      · unfold CInt.InRange
        omega
    · rw [hInv.overCount] at hFew
      rw [length_append, length_singleton]
      omega
    · intro n hNe
      by_contra hOut
      apply hNe
      have hOther : n ∉ overs.map (· + cfg.offsetToItemInlist) ++ [m + cfg.offsetToItemInlist] := by
        intro hMem
        rw [← map_singleton (f := (· + cfg.offsetToItemInlist)), ← map_append] at hMem
        rcases mem_map.mp hMem with ⟨q, hq, rfl⟩
        exact hOut ⟨q, hq, rfl⟩
      refine (Inlist.append_frame hList hNew hAppend hOther).trans ?_
      apply update_of_ne
      rintro rfl
      exact hOther (by simp)

/- What the allocator promises, for the items of the list -/
omit hValid in
theorem Inv.fresh
    (hFresh : Fresh cfg st big small) :
    (∀ b, st.pool.base = none → big = some b → 0 < b ∧
      b + cfg.itemSize * cfg.max ≤ 256 ^ wordSize ∧ ∀ p ∈ overs,
      Apart b (cfg.itemSize * cfg.max) p cfg.overSize) ∧
    ∀ m, small = some m →
      (∀ b, st.pool.base = some b →
        Apart b (cfg.itemSize * cfg.max) m cfg.overSize) ∧
      ∀ p ∈ overs, Apart m cfg.overSize p cfg.overSize := by
  have hLive : ∀ p ∈ overs, p ∈ st.live := fun p hp =>
    hInv.live.mem_iff.mpr (mem_append_right _ hp)
  refine ⟨fun b hBase hBig => ?_, fun m hSmall => ?_⟩
  · rcases hFresh.1 b hBase hBig with ⟨hPos, hEnd, hApart⟩
    exact ⟨hPos, hEnd, fun p hp =>
      hApart p (hLive p hp) (hInv.outside hp)⟩
  · rcases hFresh.2 m hSmall with ⟨hBlock, hApart⟩
    exact ⟨hBlock, fun p hp =>
      hApart p (hLive p hp) (hInv.outside hp)⟩

/- Writes to no other nodes than those of the list -/
omit hInv in
theorem Inv.untouched {st' : State} {ins' frees' overs' : List Nat}
    (hInv : Inv cfg st' ins' frees' overs')
    (hBytes : st'.pool.bytes = st.pool.bytes)
    (hLinks : ∀ n, st'.pool.links n ≠ st.pool.links n →
      ∃ q ∈ overs', n = q + cfg.offsetToItemInlist) : Untouched cfg st st' := by
  intro p _ hLive
  refine ⟨fun i _ => by rw [hBytes], fun n hNe => ?_⟩
  rcases hLinks n hNe with ⟨q, hq, rfl⟩
  exact hInv.node_apart hValid hLive hq

/- Each allocation keeps the invariant. -/
theorem malloc_inv
    (hFresh : Fresh cfg st big small) (hFew :
    NeedsOver cfg st.pool big → st.pool.overCount < CInt.intMax) :
    ∃ pool' mem ins' frees' overs',
      malloc cfg st.pool big small = some (pool', mem) ∧
      Inv cfg ⟨pool', mem.toList ++ st.live⟩ ins' frees' overs' ∧
      Untouched cfg st ⟨pool', mem.toList ++ st.live⟩ := by
  have hOld := hInv.fresh hFresh
  cases hEmpty : st.pool.empty with
  | some a =>
    rcases hInv.pop hValid big small hEmpty with ⟨pool', frees', hMalloc, hInv', hBytes, hLinks⟩
    refine ⟨pool', some a, a :: ins, frees', overs, hMalloc,
      hInv', hInv'.untouched hValid hBytes fun n hNe => ?_⟩
    exact absurd (congrFun hLinks n) hNe
  | none =>
    rcases hInv.takeBase hValid hOld.1 with ⟨hTake, hBlock⟩
    have hMalloc : malloc cfg st.pool big small =
        (takeBase cfg st.pool big).bind fun pool =>
          match pool.base with
          | none => retrySmaller cfg pool small
          | some base =>
            if pool.served < cfg.max then
              some ({ pool with
                  served := pool.served + 1
                  usage := CInt.wrap (pool.usage + 1) }, some (base + pool.served * cfg.itemSize))
            else
              retrySmaller cfg pool small := by
      unfold malloc
      rw [hEmpty]
      rfl
    rw [hMalloc, hTake, bind_some]
    -- The call goes on to the list, from either branch.
    have hRetry : NeedsOver cfg st.pool big →
        ∃ pool' mem ins' frees' overs', retrySmaller cfg
            { st.pool with base := st.pool.base.or big } small =
              some (pool', mem) ∧
          Inv cfg ⟨pool', mem.toList ++ st.live⟩ ins' frees' overs' ∧
          Untouched cfg st ⟨pool', mem.toList ++ st.live⟩ := by
      intro hNeeds
      have hApart : ∀ m, small = some m →
          (∀ b, st.pool.base.or big = some b →
            Apart b (cfg.itemSize * cfg.max) m cfg.overSize) ∧
          ∀ p ∈ overs, Apart m cfg.overSize p cfg.overSize := by
        intro m hSmall
        refine ⟨fun b hBase => ?_, (hOld.2 m hSmall).2⟩
        cases hOldBase : st.pool.base with
        | some b' =>
          rw [hOldBase, some_or] at hBase
          exact (hOld.2 m hSmall).1 b (hOldBase.trans hBase)
        | none =>
          -- A new block has free slots.
          have hSlots := hInv.slots
          have hMax := hValid.max
          unfold InSlots at hSlots
          rw [hOldBase] at hSlots
          rcases hNeeds.2 with hNone | hFull
          · rw [hBase] at hNone
            exact nomatch hNone
          · rw [hSlots.2] at hFull
            omega
      rcases hBlock.retry (hFew hNeeds) hApart with ⟨pool', overs', hRun, hInv', hBytes, hLinks⟩
      exact ⟨pool', small, ins, frees, overs', hRun, hInv', hInv'.untouched hValid hBytes hLinks⟩
    cases hBase : st.pool.base.or big with
    | none =>
      simp only
      rw [← hBase]
      exact hRetry ⟨hEmpty, Or.inl hBase⟩
    | some b =>
      simp only
      rw [← hBase]
      split
      case isTrue hRoom =>
        have hInv' := hBlock.bump hValid hBase hRoom
        refine ⟨_, _, _, _, _, rfl, hInv', hInv'.untouched hValid rfl fun n hNe => ?_⟩
        exact absurd rfl hNe
      case isFalse hFull =>
        exact hRetry ⟨hEmpty, Or.inr (Nat.not_lt.mp hFull)⟩

---
-- Giving Back
---

/- The assertion holds for a node of the list. -/
omit hValid in
omit hInv in
theorem inList_of_mem {links : Inlist.Memory Nat} {list : Option Nat}
    (as : List Nat) {bs : List Nat} {n fuel : Nat}
    (hHolds : Inlist.Holds links list (as ++ bs)) (hMem : n ∈ bs)
    (hFuel : bs.length ≤ fuel) : inList links fuel bs.head? n = true := by
  induction bs generalizing as fuel with
  | nil => exact absurd hMem not_mem_nil
  | cons b bs ih =>
    cases fuel with
    | zero => exact absurd hFuel (Nat.not_succ_le_zero _)
    | succ fuel =>
      have hNext := hHolds.linked.next_eq
      rw [head?_cons]
      unfold inList
      rw [Bool.or_eq_true, decide_eq_true_eq, hNext]
      rcases mem_cons.mp hMem with rfl | hMem
      · exact Or.inl rfl
      · rw [append_cons] at hHolds
        exact Or.inr (ih _ hHolds hMem (Nat.le_of_succ_le_succ hFuel))

/- Two items of the callers are not the same. -/
theorem Inv.nodup : (ins ++ overs).Nodup := by
  have hPos := hValid.itemSize
  rw [← hInv.live.nodup_iff]
  refine (hInv.live_apart hValid).imp fun {p q} hApart hEq => ?_
  unfold Apart at hApart
  omega

/- A slot goes to the ones that were freed. -/
theorem Inv.freeSlot (hIn : ptr ∈ ins)
    (hWide : wordSize ≤ cfg.itemSize) :
    Inv cfg ⟨{ trashPush st.pool ptr with
            usage := CInt.wrap (st.pool.usage - 1) }, st.live.erase ptr⟩
        (ins.erase ptr) (ptr :: frees) overs := by
  have hLive : ptr ∈ st.live := hInv.live.mem_iff.mpr (mem_append_left _ hIn)
  have hMove : (ins.erase ptr ++ ptr :: frees).Perm (ins ++ frees) :=
    perm_middle.trans ((perm_cons_erase hIn).symm.append_right frees)
  have hLength := length_erase_of_mem hIn
  have hSome := length_pos_of_mem hIn
  have hCount := hInv.slots.length_le
  rw [length_append] at hCount
  refine ⟨?_, hInv.slots.congr rfl rfl hMove, ?_, fun _ => hWide,
    hInv.list, hInv.apart, ?_, hInv.overCount, hInv.few⟩
  · rw [← erase_append_left _ hIn]
    exact hInv.live.erase ptr
  · exact hInv.push hValid hWide hLive
  · have hMax := hValid.maxInt
    unfold CInt.intMax at hMax
    simp only [hInv.usage]
    rw [CInt.wrap_of_inRange]
    · omega
    · unfold CInt.InRange
      omega

/- The item with a block of its own is taken out of the list. -/
theorem Inv.freeOver (hOver : ptr ∈ overs) :
    Inv cfg ⟨{ st.pool with
            links := (Inlist.remove st.pool.links st.pool.overList (ptr + cfg.offsetToItemInlist)).1
            overList := (Inlist.remove st.pool.links
              st.pool.overList (ptr + cfg.offsetToItemInlist)).2
            overCount := CInt.wrap (st.pool.overCount - 1) }, st.live.erase ptr⟩
        ins frees (overs.erase ptr) ∧
      ∀ n, (Inlist.remove st.pool.links st.pool.overList
          (ptr + cfg.offsetToItemInlist)).1 n ≠ st.pool.links n →
        ∃ q ∈ overs, n = q + cfg.offsetToItemInlist := by
  have hNodup := hInv.nodup hValid
  rw [nodup_append] at hNodup
  have hOut : ptr ∉ ins := fun hIn =>
    hNodup.2.2 ptr hIn ptr hOver rfl
  rcases append_of_mem hOver with ⟨as, bs, rfl⟩
  have hErase : (as ++ ptr :: bs).erase ptr = as ++ bs := by
    have hAs : ptr ∉ as := by
      intro hMem
      exact (nodup_append.mp hNodup.2.1).2.2 ptr hMem ptr (by simp) rfl
    rw [erase_append_right _ hAs, erase_cons_head]
  have hList := hInv.list
  rw [map_append, map_cons] at hList
  have hFew := hInv.few
  have hCount := hInv.overCount
  rw [length_append, length_cons] at hFew hCount
  refine ⟨⟨?_, ?_, hInv.chain, hInv.wide, ?_, ?_, hInv.usage, ?_, ?_⟩, ?_⟩
  · rw [← erase_append_right _ hOut]
    exact hInv.live.erase ptr
  · have hSlots := hInv.slots
    unfold InSlots at hSlots ⊢
    dsimp only
    cases hBase : st.pool.base with
    | none =>
      rw [hBase] at hSlots
      exact hSlots
    | some b =>
      rw [hBase] at hSlots
      exact ⟨hSlots.1, hSlots.2.1, hSlots.2.2.1,
        hSlots.2.2.2.1, fun p hp =>
          hSlots.2.2.2.2 p (mem_of_mem_erase hp)⟩
  · rw [hErase, map_append]
    exact Inlist.remove_spec hList
  · exact hInv.apart.sublist erase_sublist
  · unfold CInt.intMax at hFew
    rw [hErase, length_append]
    simp only [hCount]
    rw [CInt.wrap_of_inRange]
    · omega
    · unfold CInt.InRange
      omega
  · rw [hErase, length_append]
    omega
  · intro n hNe
    by_contra hOther
    apply hNe
    apply Inlist.remove_frame hList
    intro hMem
    rw [← map_cons (f := (· + cfg.offsetToItemInlist)), ← map_append] at hMem
    rcases mem_map.mp hMem with ⟨q, hq, rfl⟩
    exact hOther ⟨q, hq, rfl⟩

---
-- Runs
---

/- A new pool, in a memory with some bytes -/
def State.start (bytes : Nat → Nat) : State where
  pool := Pool.init bytes
  live := []

/- New blocks are new, and only items of the caller are used. -/
def Allowed (cfg : Config) (st : State) : Op → Prop
  | .malloc big small => Fresh cfg st big small
  | .free ptr => ptr ∈ st.live
  | .write ptr i _ => ptr ∈ st.live ∧ i < cfg.itemSize

/-
  The number of items with blocks of their own stays an `int`;
  a slot that is freed has room for a link; and without the
  big block an item is not at an address below its size.
-/
def Meets (cfg : Config) (st : State) : Op → Prop
  | .malloc big _ =>
    NeedsOver cfg st.pool big → st.pool.overCount < CInt.intMax
  | .free ptr =>
    (Inside cfg st.pool ptr → wordSize ≤ cfg.itemSize) ∧
      (st.pool.base = none → cfg.itemSize * cfg.max ≤ ptr)
  | .write .. => True

/- A size is not rounded down. -/
omit hValid in
omit hInv in
theorem alignof_pos {size : Nat} (hPos : 0 < size) : 0 < Mempool.alignof size := by
  have hRound : ∀ align, 0 < align →
      0 < (size / align + if size % align ≠ 0 then 1 else 0) *
        align := by
    intro align hAlign
    apply Nat.mul_pos _ hAlign
    split
    case isTrue => exact Nat.succ_pos _
    case isFalse hWhole =>
      rw [Nat.add_zero, Nat.div_pos_iff]
      refine ⟨hAlign, ?_⟩
      by_contra hLess
      rw [Nat.mod_eq_of_lt (Nat.not_le.mp hLess)] at hWhole
      omega
  apply hRound
  split
  · decide
  · split
    · decide
    · split <;> decide

omit hValid in
omit hInv in
theorem Config.valid_of_init {size max : Int} (hInit : Config.init size max = some cfg)
    (hBig : cfg.itemSize * cfg.max ≤ CInt.intMax) : cfg.Valid := by
  unfold Config.init at hInit
  rw [ite_none_left_eq_some] at hInit
  obtain ⟨-, rfl⟩ := And.imp_right some.inj hInit
  have hSize : 0 < Mempool.alignof (if size < 1 then 1 else size).toNat := by
    apply alignof_pos
    split <;> omega
  have hMax : 0 < (if max < 1 then 1 else max).toNat := by
    split <;> omega
  dsimp only at hBig
  generalize Mempool.alignof (if size < 1 then 1 else size).toNat = itemSize at *
  generalize (if max < 1 then 1 else max).toNat = count at *
  refine ⟨hSize, hMax, ?_, ?_, hBig⟩
  · have hMul := Nat.le_mul_of_pos_left count hSize
    dsimp only
    omega
  · dsimp only
    unfold wordSize
    split <;> omega

omit hValid in
omit hInv in
theorem inv_start (bytes : Nat → Nat) : Inv cfg (State.start bytes) [] [] [] := by
  refine ⟨List.Perm.nil, ⟨rfl, rfl⟩, rfl, fun hNone => absurd rfl hNone,
    ⟨DList.linked_nil, rfl, fun h hHead => nomatch hHead⟩, List.Pairwise.nil, rfl, rfl, by decide⟩

/- Each item that is given back keeps the invariant. -/
theorem free_inv (hLive : ptr ∈ st.live)
    (hMeets : Meets cfg st (.free ptr)) :
    ∃ pool' ins' frees' overs',
      free cfg st.pool ptr = some pool' ∧
      Inv cfg ⟨pool', st.live.erase ptr⟩ ins' frees' overs' ∧
      Untouched cfg st ⟨pool', st.live.erase ptr⟩ := by
  have hInt : ¬ CInt.intMax < cfg.itemSize * cfg.max := Int.not_lt.mpr hValid.big
  unfold free Config.bigSize
  rw [if_neg (by exact_mod_cast hInt)]
  simp only [bind_eq_bind, bind_some]
  rcases mem_append.mp (hInv.live.mem_iff.mp hLive) with hIn | hOver
  · have hInside := hInv.inside hValid hIn
    have hWide := hMeets.1 hInside
    have hBlock : InBlock st.pool (cfg.itemSize * cfg.max) ptr := by
      unfold Inside at hInside
      unfold InBlock
      cases hBase : st.pool.base with
      | none =>
        rw [hBase] at hInside
        exact hInside.elim
      | some b =>
        rw [hBase] at hInside
        exact hInside
    rw [if_pos hBlock]
    refine ⟨_, _, _, _, rfl, hInv.freeSlot hValid hIn hWide, ?_⟩
    intro p hp hKept
    refine ⟨fun i hi => ?_, fun n hNe => absurd rfl hNe⟩
    have hNe : p ≠ ptr := by
      rintro rfl
      have hNodup : st.live.Nodup := hInv.live.nodup_iff.mpr (hInv.nodup hValid)
      exact hNodup.not_mem_erase hKept
    have hApart := (hInv.live_apart hValid).forall hp hLive hNe
    unfold Apart at hApart
    exact Words.store_of_outside (by omega)
  · have hOut : ¬ InBlock st.pool (cfg.itemSize * cfg.max) ptr := by
      have hOutside := hInv.outside hOver
      unfold Inside at hOutside
      unfold InBlock
      cases hBase : st.pool.base with
      | none =>
        have hHigh := hMeets.2 hBase
        rw [getD_none]
        omega
      | some b =>
        rw [hBase] at hOutside
        exact hOutside
    have hAssert : inList st.pool.links st.pool.overCount.toNat
        st.pool.overList (ptr + cfg.offsetToItemInlist) = true := by
      rw [hInv.list.head]
      refine inList_of_mem [] hInv.list (mem_map.mpr ⟨ptr, hOver, rfl⟩) ?_
      rw [length_map, hInv.overCount, Int.toNat_natCast]
    rw [if_neg hOut, if_pos hAssert]
    rcases hInv.freeOver hValid hOver with ⟨hInv', hLinks⟩
    refine ⟨_, _, _, _, rfl, hInv', ?_⟩
    intro p hp _
    refine ⟨fun i _ => rfl, fun n hNe => ?_⟩
    rcases hLinks n hNe with ⟨q, hq, rfl⟩
    exact hInv.node_apart hValid hp hq

/- A caller may write to its item. -/
theorem write_inv {i : Nat} (byte : Nat)
    (hLive : ptr ∈ st.live) (hIn : i < cfg.itemSize) :
    Inv cfg
      { st with
        pool := { st.pool with
          bytes := update st.pool.bytes (ptr + i) byte } } ins frees overs := by
  refine ⟨hInv.live, hInv.slots.congr rfl rfl (List.Perm.refl _),
    ?_, hInv.wide, hInv.list, hInv.apart, hInv.usage, hInv.overCount, hInv.few⟩
  apply hInv.chain_congr
  intro q hq b hLow hHigh
  have hApart := hInv.ins_apart_frees hValid hLive hq
  unfold Apart at hApart
  apply update_of_ne
  omega

omit hInv

/- What every allowed step does -/
theorem step_inv {op : Op}
    (hInv : ∃ ins frees overs, Inv cfg st ins frees overs)
    (hAllowed : Allowed cfg st op) (hMeets : Meets cfg st op) :
    ∃ st', step cfg st op = some st' ∧
      (∃ ins frees overs, Inv cfg st' ins frees overs) ∧
      ((∀ ptr i byte, op ≠ .write ptr i byte) → Untouched cfg st st') := by
  rcases hInv with ⟨ins, frees, overs, hInv⟩
  cases op with
  | malloc big small =>
    rcases malloc_inv hValid hInv hAllowed hMeets with
      ⟨pool', mem, ins', frees', overs', hMalloc, hInv', hKept⟩
    refine ⟨⟨pool', mem.toList ++ st.live⟩, ?_, ⟨ins', frees', overs', hInv'⟩, fun _ => hKept⟩
    unfold step
    simp only [hMalloc, bind_eq_bind, bind_some]
  | free ptr =>
    rcases free_inv hValid hInv hAllowed hMeets with
      ⟨pool', ins', frees', overs', hFree, hInv', hKept⟩
    refine ⟨⟨pool', st.live.erase ptr⟩, ?_, ⟨ins', frees', overs', hInv'⟩, fun _ => hKept⟩
    unfold step
    simp only [hFree, bind_eq_bind, bind_some]
  | write ptr i byte =>
    exact ⟨_, rfl, ⟨ins, frees, overs, write_inv hValid hInv byte hAllowed.1 hAllowed.2⟩,
      fun hCall => absurd rfl (hCall ptr i byte)⟩

omit hValid

/-
  In every run whose calls meet the condition, the items are
  apart and counted, and no call changes a byte of an item
  that a caller has.
-/
theorem items_correct
    {size max : Int} (bytes : Nat → Nat) {ops : List Op}
    (hInit : Config.init size max = some cfg)
    (hBig : cfg.itemSize * cfg.max ≤ CInt.intMax)
    (hOps : Runs.Guarded (step cfg) (fun st op => Allowed cfg st op ∧
      Meets cfg st op) (State.start bytes) ops) :
    ∃ st, Runs.run (step cfg) (State.start bytes) ops = some st ∧
      Consistent cfg st ∧
      ∀ op, Allowed cfg st op → Meets cfg st op →
        ∃ st', step cfg st op = some st' ∧
          ((∀ ptr i byte, op ≠ .write ptr i byte) →
            Untouched cfg st st') := by
  have hValid := Config.valid_of_init hInit hBig
  rcases Runs.run_of_guarded (fun st => ∃ ins frees overs,
    Inv cfg st ins frees overs) (fun st op hInv hOk => by
      rcases step_inv hValid hInv hOk.1 hOk.2 with
        ⟨st', hStep, hInv', -⟩
      exact ⟨st', hStep, hInv'⟩)
    ⟨[], [], [], inv_start bytes⟩ hOps with ⟨st, hRun, hInv⟩
  refine ⟨st, hRun, ?_, fun op hAllowed hMeets => ?_⟩
  · rcases hInv with ⟨ins, frees, overs, hInv⟩
    exact hInv.consistent hValid
  · rcases step_inv hValid hInv hAllowed hMeets with
      ⟨st', hStep, -, hKept⟩
    exact ⟨st', hStep, hKept⟩

/- A pool of two slots of 8 bytes -/
def pairs : Config :=
  ⟨8, 8, 2⟩

/- Two slots, of which one is given back -/
def sample : List Op :=
  [.malloc (some 4096) none, .malloc none none, .free 4096]

theorem items_correct_sample :
    ∃ st, Runs.run (step pairs) (State.start fun _ => 0) sample =
        some st ∧
      Consistent pairs st ∧
      ∀ op, Allowed pairs st op → Meets pairs st op →
        ∃ st', step pairs st op = some st' ∧
          ((∀ ptr i byte, op ≠ .write ptr i byte) →
            Untouched pairs st st') := by
  have hInit : Config.init 8 2 = some pairs := by decide
  refine items_correct _ hInit (by decide)
    ⟨⟨⟨?_, ?_⟩, fun _ => by decide⟩, ?_⟩
  · intro b _ hBig
    obtain rfl := some.inj hBig
    exact ⟨by decide, by decide, fun p hp =>
      absurd hp not_mem_nil⟩
  · exact fun m hSmall => nomatch hSmall
  intro st₁ hFirst
  obtain rfl := some.inj hFirst
  refine ⟨⟨⟨fun b hBase => (nomatch hBase),
    fun m hSmall => (nomatch hSmall)⟩, fun _ => by decide⟩, ?_⟩
  intro st₂ hSecond
  obtain rfl := some.inj hSecond
  exact ⟨⟨show 4096 ∈ [4104, 4096] by decide, fun _ => by decide,
    fun hNone => (nomatch hNone)⟩, fun _ _ => trivial⟩

/- A pool of two slots for items of 4 bytes -/
def shorts : Config :=
  ⟨4, 8, 2⟩

/- The state after two items, the second of which is written -/
def shortState : Option State :=
  Runs.run (step shorts) (State.start fun _ => 0)
    [.malloc (some 4096) none, .malloc none none, .write 4100 0 7]

/-
  When the first item is freed, its link is written over the
  second one.
-/
theorem short_overwritten :
    Config.init 4 2 = some shorts ∧
      ∃ st st', shortState = some st ∧
        4096 ∈ st.live ∧ step shorts st (.free 4096) = some st' ∧
        4100 ∈ st.live ∧ 4100 ∈ st'.live ∧
        st.pool.bytes 4100 = 7 ∧ st'.pool.bytes 4100 = 0 := by
  refine ⟨by decide, _, _, rfl, by decide, rfl, by decide,
    by decide, by decide, by decide⟩

end Efl.Eina.OneBig
