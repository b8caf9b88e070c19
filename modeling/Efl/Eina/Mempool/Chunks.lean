import Efl.Eina.Mempool.Model
import Efl.Lib.Chain

/-
  The slots of one chunk: an item is one of the caller's, one
  of those that were freed, or it was never handed out.

  Main declarations:
    * `Sized`, `Inside`
    * `Represents`
    * `takeItem_spec`, `pushItem_spec`
    * `Represents.full_iff`
-/

---
-- Slots
---

namespace Efl.Eina.Mempool

open List

/- Sizes of chunks with at least one slot. -/
structure Sized (cfg : Config) : Prop where
  item_pos : 0 < cfg.itemAlloc
  slots_pos : 0 < cfg.poolSize
  group : cfg.groupSize = cfg.itemAlloc * cfg.poolSize
  fits : headerSize + cfg.groupSize ≤ cfg.allocSize
  range : cfg.poolSize ≤ CInt.intMax

/- The sizes that are computed are such ones. -/
theorem sized_of_init {pageSize itemSize poolSize : Nat} {cfg : Config}
    (hInit : Config.init pageSize itemSize poolSize = some cfg)
    (hSlots : 0 < cfg.poolSize) : Sized cfg := by
  unfold Config.init at hInit
  dsimp only at hInit
  split at hInit
  case isTrue => exact nomatch hInit
  case isFalse hPages =>
    obtain rfl := Option.some.inj hInit
    rw [not_or] at hPages
    generalize ((max (alignof itemSize) 8 * poolSize +
      alignof headerSize) / pageSize + 1) * pageSize = pages at *
    have hItem : 0 < max (alignof itemSize) 8 := lt_max_of_lt_right (by decide)
    refine ⟨hItem, hSlots, rfl, ?_, ?_⟩
    · have hAligned : alignof headerSize = headerSize := rfl
      dsimp only
      omega
    · dsimp only
      have hDiv := Nat.div_le_self (pages - alignof headerSize) (max (alignof itemSize) 8)
      omega

/- An address among the slots of a chunk. -/
def Inside (cfg : Config) (p a : Nat) : Prop :=
  p + headerSize ≤ a ∧ a < p + headerSize + cfg.groupSize

instance (cfg : Config) (p a : Nat) : Decidable (Inside cfg p a) :=
  inferInstanceAs (Decidable (_ ∧ _))

/- The items of a chunk. -/
def items (cfg : Config) (live : List Nat) (p : Nat) : List Nat :=
  live.filter fun a => Inside cfg p a

variable {cfg : Config}

theorem slot_inside (hSized : Sized cfg) {p : Nat} {i : Nat}
    (hi : i < cfg.poolSize) : Inside cfg p (slot cfg p i) := by
  have hMul : cfg.itemAlloc * i < cfg.itemAlloc * cfg.poolSize :=
    Nat.mul_lt_mul_of_pos_left hi hSized.item_pos
  have hGroup := hSized.group
  unfold Inside slot
  omega

theorem slot_injective (hSized : Sized cfg) (p : Nat) : Function.Injective (slot cfg p) := by
  intro i j hSame
  unfold slot at hSame
  exact Nat.eq_of_mul_eq_mul_left hSized.item_pos (Nat.add_left_cancel hSame)

theorem slot_succ (p i : Nat) : slot cfg p i + cfg.itemAlloc = slot cfg p (i + 1) := by
  unfold slot
  rw [Nat.mul_succ, Nat.add_assoc _ (_ * i)]

theorem slot_le_iff (hSized : Sized cfg) {p i j : Nat} : slot cfg p i ≤ slot cfg p j ↔ i ≤ j := by
  unfold slot
  rw [Nat.add_le_add_iff_left, Nat.mul_le_mul_left_iff hSized.item_pos]

/- Slots with different indices are apart. -/
theorem slot_apart (p : Nat) {i j : Nat} (hNe : i ≠ j) :
    Apart cfg.itemAlloc (slot cfg p i) (slot cfg p j) := by
  unfold Apart slot
  rcases Nat.lt_or_gt_of_ne hNe with hLess | hLess
  · left
    have hMul : cfg.itemAlloc * (i + 1) ≤ cfg.itemAlloc * j := Nat.mul_le_mul_left _ hLess
    rw [Nat.mul_succ] at hMul
    omega
  · right
    have hMul : cfg.itemAlloc * (j + 1) ≤ cfg.itemAlloc * i := Nat.mul_le_mul_left _ hLess
    rw [Nat.mul_succ] at hMul
    omega

/- An address is in one chunk only. -/
theorem Inside.unique (hSized : Sized cfg) {p q a : Nat}
    (hp : Inside cfg p a) (hq : Inside cfg q a) : ¬ Apart cfg.allocSize p q := by
  have hFits := hSized.fits
  unfold Inside at hp hq
  unfold Apart
  omega

theorem slots_nodup (hSized : Sized cfg) (p : Nat) (n : Nat) :
    ((List.range n).map (slot cfg p)).Nodup := List.nodup_range.map (slot_injective hSized p)

---
-- Items
---

/-
  A chunk with items, with free slots in its trash, and with
  slots from `mark` on that were not handed out.
-/
structure Represents (cfg : Config) (word : Nat → Option Nat) (p : Nat) (c : Chunk)
    (taken trash : List Nat) (mark : Nat) : Prop where
  limit : c.limit = slot cfg p cfg.poolSize
  mark_le : mark ≤ cfg.poolSize
  last : c.last =
    if mark < cfg.poolSize then some (slot cfg p mark) else none
  chain : Chain.Seg word c.base trash
  slots : (taken ++ trash).Perm
    ((List.range mark).map (slot cfg p))
  usage : c.usage = taken.length

section

variable {word : Nat → Option Nat} {p : Nat} {c : Chunk}
  {taken trash : List Nat} {mark : Nat}

theorem Represents.nodup (hSized : Sized cfg)
    (hRep : Represents cfg word p c taken trash mark) : (taken ++ trash).Nodup :=
  hRep.slots.nodup_iff.mpr (slots_nodup hSized p mark)

section

variable (hRep : Represents cfg word p c taken trash mark)

include hRep

theorem Represents.length : taken.length + trash.length = mark := by
  rw [← length_append, hRep.slots.length_eq, length_map, length_range]

/- The items and the free slots are slots. -/
theorem Represents.slot_of_mem {a : Nat}
    (hMem : a ∈ taken ++ trash) : ∃ i, i < mark ∧ slot cfg p i = a := by
  have hSlot := hRep.slots.mem_iff.mp hMem
  rw [List.mem_map] at hSlot
  rcases hSlot with ⟨i, hRange, hEq⟩
  exact ⟨i, mem_range.mp hRange, hEq⟩

omit hRep in
theorem Represents.inside (hSized : Sized cfg)
    (hRep : Represents cfg word p c taken trash mark) {a : Nat}
    (hMem : a ∈ taken ++ trash) : Inside cfg p a := by
  rcases hRep.slot_of_mem hMem with ⟨i, hi, rfl⟩
  exact slot_inside hSized (hi.trans_le hRep.mark_le)

/- A chunk is full when the caller has all of its slots. -/
theorem Represents.full_iff : c.Full ↔ taken.length = cfg.poolSize := by
  have hLength := hRep.length
  have hMark := hRep.mark_le
  unfold Chunk.Full
  rw [hRep.chain.head, hRep.last, head?_eq_none_iff]
  constructor
  · rintro ⟨rfl, hLast⟩
    have hEnd : ¬ mark < cfg.poolSize := by
      intro hLess
      rw [if_pos hLess] at hLast
      exact nomatch hLast
    rw [length_nil] at hLength
    omega
  · intro hAll
    refine ⟨eq_nil_of_length_eq_zero (by omega), ?_⟩
    rw [if_neg (by omega)]

end

section

variable (hSized : Sized cfg)

include hSized

/- Only the first words of its slots matter. -/
theorem Represents.congr {word' : Nat → Option Nat}
    (hRep : Represents cfg word p c taken trash mark)
    (hWord : ∀ a, Inside cfg p a → a ∉ taken → word' a = word a) :
    Represents cfg word' p c taken trash mark := by
  refine { hRep with chain := hRep.chain.congr ?_ }
  intro a hMem
  apply hWord a
  · exact hRep.inside hSized (mem_append_right _ hMem)
  · intro hTaken
    have hNodup := nodup_append.mp (hRep.nodup hSized)
    exact hNodup.2.2 a hTaken a hMem rfl

/- A chunk that was just made. -/
theorem represents_new
    (word : Nat → Option Nat) (p : Nat) :
    Represents cfg word p
      { base := none
        usage := 0
        last := some (slot cfg p 0)
        limit := slot cfg p cfg.poolSize } [] [] 0 where
  limit := rfl
  mark_le := Nat.zero_le _
  last := (if_pos hSized.slots_pos).symm
  chain := rfl
  slots := List.Perm.refl []
  usage := rfl

theorem wrap_of_slots {n : Nat} (hn : n ≤ cfg.poolSize) : CInt.wrap n = n := by
  have hRange := hSized.range
  unfold CInt.intMax at hRange
  apply CInt.wrap_of_inRange
  unfold CInt.InRange
  omega

/- A slot is handed out. -/
theorem takeItem_spec {pool : Pool} (hRep : Represents cfg pool.word p c taken trash mark)
    (hRoom : ¬ c.Full) :
    ∃ c' a trash' mark',
      takeItem cfg pool c = (c', some a) ∧
      c'.usage = c.usage ∧ Represents cfg pool.word p { c' with usage := CInt.wrap (c.usage + 1) }
        (a :: taken) trash' mark' ∧
      a ∉ taken := by
  have hLength := hRep.length
  have hNodup := hRep.nodup hSized
  have hUsage : ∀ n, n = taken.length + 1 → n ≤ cfg.poolSize →
      CInt.wrap (c.usage + 1) = (n : Nat) := by
    intro n hn hLe
    rw [hRep.usage, ← wrap_of_slots hSized hLe, hn]
    rfl
  rcases hRep with ⟨hLimit, hMark, hLast, hChain, hSlots, hCount⟩
  by_cases hLess : mark < cfg.poolSize
  · -- The first slot that was not handed out.
    rw [if_pos hLess] at hLast
    refine ⟨{ c with last :=
        (if mark + 1 < cfg.poolSize then
          some (slot cfg p (mark + 1)) else none) },
      slot cfg p mark, trash, mark + 1, ?_, rfl, ⟨hLimit, hLess, rfl, hChain, ?_,
        hUsage _ rfl (show taken.length + 1 ≤ _ by omega)⟩, ?_⟩
    · unfold takeItem
      rw [hLast]
      dsimp only
      rw [hLimit, slot_succ]
      by_cases hNext : mark + 1 < cfg.poolSize
      · have hLow := (slot_le_iff hSized (p := p)).not.mpr (Nat.not_le.mpr hNext)
        rw [if_neg hLow, if_pos hNext]
      · have hHigh := (slot_le_iff hSized (p := p)).mpr (Nat.not_lt.mp hNext)
        rw [if_pos hHigh, if_neg hNext]
    · rw [range_succ, map_append, cons_append]
      exact (hSlots.cons _).trans (perm_append_singleton _ _).symm
    · intro hMem
      have hSlot := hSlots.mem_iff.mp (mem_append_left trash hMem)
      rw [List.mem_map] at hSlot
      rcases hSlot with ⟨i, hRange, hEq⟩
      have hSame := slot_injective hSized p hEq
      rw [mem_range] at hRange
      omega
  · -- The slot that was freed last.
    rw [if_neg hLess] at hLast
    cases trash with
    | nil => exact absurd ⟨hChain, hLast⟩ hRoom
    | cons a trash =>
      refine ⟨{ c with base := pool.word a }, a, trash, mark, ?_, rfl,
        ⟨hLimit, hMark, ?_, hChain.2, ?_, hUsage _ rfl (show taken.length + 1 ≤ _ from ?_)⟩, ?_⟩
      · unfold takeItem
        rw [hLast, hChain.1]
      · rw [if_neg hLess]
        exact hLast
      · exact perm_middle.symm.trans hSlots
      · rw [length_cons] at hLength
        omega
      · intro hMem
        exact (nodup_append.mp hNodup).2.2 a hMem a (by simp) rfl

/- An item is put into the trash. -/
theorem pushItem_spec {a : Nat} (hRep : Represents cfg word p c taken trash mark)
    (hMem : a ∈ taken) :
    Represents cfg (Function.update word a c.base) p
      { c with
        base := some a
        usage := CInt.wrap (c.usage - 1) } (taken.erase a) (a :: trash) mark := by
  have hNodup := nodup_append.mp (hRep.nodup hSized)
  have hLength := hRep.length
  have hMark := hRep.mark_le
  refine ⟨hRep.limit, hMark, hRep.last, ?_, ?_, ?_⟩
  · exact hRep.chain.push fun hTrash =>
      hNodup.2.2 a hMem a hTrash rfl
  · have hErase := perm_cons_erase hMem
    exact perm_middle.trans ((hErase.symm.append_right trash).trans hRep.slots)
  · have hPos := length_pos_of_mem hMem
    dsimp only
    rw [hRep.usage, length_erase_of_mem hMem, ← wrap_of_slots hSized
      (show taken.length - 1 ≤ cfg.poolSize by omega)]
    congr 1
    omega

end

end

end Efl.Eina.Mempool
