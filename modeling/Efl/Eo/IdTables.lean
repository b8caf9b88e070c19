import Efl.Eo.Ids
import Efl.Lib.Fifo
import Mathlib.Data.Finset.Card
import Mathlib.Data.Finset.Range

/-
  What the id tables keep true.

  Main declarations:
    * `TableOk`
    * `State`, `Op`, `step`
    * `getAvailableEntry_spec`
    * `searchTables_spec`
-/

---
-- Taking Ids Apart
---

namespace Efl.Eo.Ids

/- The fields of an id, from the highest one on. -/
theorem or_order (t m b d e g : Nat) :
    t ||| m ||| b ||| d ||| e ||| g = t ||| (d ||| (m ||| (b ||| (e ||| g)))) := by
  ac_rfl

variable {e : Nat}

/- The id of an entry, as a sum. -/
theorem composeFinal_eq {mid tab d g : Nat} (hMid : mid < 2048)
    (hTab : tab < 2048) (hEntry : e < 2048) (hDomain : d < 4)
    (hGen : g < 1024) :
    composeFinal (composePartial mid tab) e d g = 2 ^ 46 + (d * 2 ^ 43 +
      (mid * 2 ^ 32 + (tab * 2 ^ 21 + (e * 2 ^ 10 + g)))) := by
  have hMask : ∀ n k, n < 2 ^ k → n &&& (2 ^ k - 1) = n := by
    intro n k hn
    rw [Nat.and_two_pow_sub_one_eq_mod, Nat.mod_eq_of_lt hn]
  have hShift : ∀ n k r, r < 2 ^ k → n <<< k ||| r = n * 2 ^ k + r := by
    intro n k r hr
    rw [← Nat.shiftLeft_add_eq_or_of_lt hr, Nat.shiftLeft_eq]
  have hTag : ∀ r, r < 2 ^ 46 → 1 <<< 46 ||| r = 2 ^ 46 + r := by
    intro r hr
    rw [hShift 1 46 r hr, Nat.one_mul]
  unfold composeFinal composePartial
  have hMid' : mid &&& 2047 = mid := hMask mid 11 hMid
  have hTab' : tab &&& 2047 = tab := hMask tab 11 hTab
  have hEntry' : e &&& 2047 = e := hMask e 11 hEntry
  have hDomain' : d &&& 3 = d := hMask d 2 hDomain
  have hGen' : g &&& 1023 = g := hMask g 10 hGen
  rw [hMid', hTab', hEntry', hDomain', hGen']
  rw [or_order, hShift e 10 g hGen, hShift tab 21 _ (by omega),
    hShift mid 32 _ (by omega), hShift d 43 _ (by omega), hTag _ (by omega)]

/- The numbers of which the tables are made. -/
structure InRange (mid tab e d g : Nat) : Prop where
  mid : mid < maxMidTableId
  tab : tab < maxTableId
  entry : e < maxEntryId
  domain : d < 4
  generation : g < maxGenerations

section

variable {mid tab e d g : Nat}

theorem InRange.compose_eq (hRange : InRange mid tab e d g) :
    composeFinal (composePartial mid tab) e d g = 2 ^ 46 + (d * 2 ^ 43 +
      (mid * 2 ^ 32 + (tab * 2 ^ 21 + (e * 2 ^ 10 + g)))) := by
  rcases hRange with ⟨hMid, hTab, hEntry, hDomain, hGen⟩
  unfold maxMidTableId at hMid
  unfold maxTableId at hTab
  unfold maxEntryId at hEntry
  unfold maxGenerations at hGen
  exact composeFinal_eq hMid (by omega) (by omega) hDomain hGen

theorem InRange.bounds (hRange : InRange mid tab e d g) :
    mid < 2048 ∧ tab < 2046 ∧ e < 2045 ∧ d < 4 ∧ g < 1024 :=
  ⟨hRange.mid, hRange.tab, hRange.entry, hRange.domain, hRange.generation⟩

theorem and_2047 (n : Nat) : n &&& 2047 = n % 2048 := Nat.and_two_pow_sub_one_eq_mod n 11

section

variable (hRange : InRange mid tab e d g)

include hRange

theorem InRange.midOf_eq :
    midOf (composeFinal (composePartial mid tab) e d g) =
      mid := by
  have hBounds := hRange.bounds
  unfold midOf
  rw [hRange.compose_eq, and_2047, Nat.shiftRight_eq_div_pow]
  omega

theorem InRange.tabOf_eq :
    tabOf (composeFinal (composePartial mid tab) e d g) =
      tab := by
  have hBounds := hRange.bounds
  unfold tabOf
  rw [hRange.compose_eq, and_2047, Nat.shiftRight_eq_div_pow]
  omega

theorem InRange.entryOf_eq :
    entryOf (composeFinal (composePartial mid tab) e d g) =
      e := by
  have hBounds := hRange.bounds
  unfold entryOf
  rw [hRange.compose_eq, and_2047, Nat.shiftRight_eq_div_pow]
  omega

theorem InRange.generationOf_eq :
    generationOf (composeFinal (composePartial mid tab) e d g) =
      g := by
  have hBounds := hRange.bounds
  have hMod : ∀ n, n &&& 1023 = n % 1024 := fun n =>
    Nat.and_two_pow_sub_one_eq_mod n 10
  unfold generationOf
  rw [hRange.compose_eq, hMod]
  omega

theorem InRange.domainOf_eq :
    domainOf (composeFinal (composePartial mid tab) e d g) =
      d := by
  have hBounds := hRange.bounds
  have hMod : ∀ n, n &&& 3 = n % 4 := fun n =>
    Nat.and_two_pow_sub_one_eq_mod n 2
  unfold domainOf
  rw [hRange.compose_eq, hMod, Nat.shiftRight_eq_div_pow]
  omega

/- The tag is set, so the id is not 0. -/
theorem InRange.tagOf_ne : tagOf (composeFinal (composePartial mid tab) e d g) ≠ 0 := by
  have hBounds := hRange.bounds
  unfold tagOf
  rw [hRange.compose_eq]
  intro hZero
  have hBit := congrArg (Nat.testBit · 46) hZero
  simp only [Nat.testBit_and, Nat.zero_testBit, Nat.testBit_shiftLeft] at hBit
  rw [Nat.testBit_eq_decide_div_mod_eq] at hBit
  simp at hBit
  omega

theorem InRange.id_ne : composeFinal (composePartial mid tab) e d g ≠ 0 := by
  rw [hRange.compose_eq]
  omega

/- The id tells the numbers. -/
theorem InRange.injective {mid' tab' e' g' : Nat} (hRange' : InRange mid' tab' e' d g')
    (hSame : composeFinal (composePartial mid tab) e d g =
      composeFinal (composePartial mid' tab') e' d g') :
    mid = mid' ∧ tab = tab' ∧ e = e' ∧ g = g' := by
  have hBounds := hRange.bounds
  have hBounds' := hRange'.bounds
  rw [hRange.compose_eq, hRange'.compose_eq] at hSame
  omega

end

end

---
-- One Table
---

open Function
variable {O : Type}

/- The entries of a table without an object. -/
def Table.inactive (table : Table O) : Finset Nat :=
  (Finset.range maxEntryId).filter fun e =>
    (table.entries e).active = false

/- What the numbers and the fifo of a table say. -/
structure TableOk (table : Table O) : Prop where
  start_le : table.start ≤ maxEntryId
  above :
    ∀ e, table.start ≤ e → (table.entries e).active = false
  count : table.freeEntries = table.inactive.card
  fifo :
    ∃ es : List Nat,
      Fifo.Queue (fun e => (table.entries e).nextInFifo)
        table.fifoHead table.fifoTail es ∧
      ∀ e, e ∈ es ↔
        e < table.start ∧ (table.entries e).active = false

variable {table : Table O}

theorem Table.mem_inactive :
    e ∈ table.inactive ↔ e < maxEntryId ∧ (table.entries e).active = false := by
  unfold inactive
  rw [Finset.mem_filter, Finset.mem_range]

theorem TableOk.lt_of_active (hOk : TableOk table)
    (hActive : (table.entries e).active = true) : e < table.start := by
  by_contra hAbove
  rw [hOk.above e (by omega)] at hActive
  exact Bool.noConfusion hActive

theorem Table.active_fill
    (table : Table O) (e : Nat) (obj : O) (g n : Nat) :
    ((table.fill e obj g).entries n).active = false ↔ n ≠ e ∧ (table.entries n).active = false := by
  unfold fill setEntry
  by_cases hSame : n = e
  · subst hSame
    simp
  · simp [hSame]

theorem Table.next_fill
    (table : Table O) (e : Nat) (obj : O) (g : Nat) :
    (fun n => ((table.fill e obj g).entries n).nextInFifo) =
      fun n => (table.entries n).nextInFifo := by
  funext n
  unfold fill setEntry
  by_cases hSame : n = e
  · subst hSame
    simp
  · simp [hSame]

/- One entry less is without an object. -/
theorem Table.card_fill (obj : O) (g : Nat) (hEntry : e < maxEntryId)
    (hInactive : (table.entries e).active = false) :
    (table.fill e obj g).inactive.card = table.inactive.card - 1 := by
  have hErase : (table.fill e obj g).inactive = table.inactive.erase e := by
    ext n
    rw [Finset.mem_erase, mem_inactive, mem_inactive, active_fill]
    tauto
  rw [hErase, Finset.card_erase_of_mem (mem_inactive.mpr ⟨hEntry, hInactive⟩)]

/- The entry that a table gives is free, and can be filled. -/
theorem getAvailableEntry_spec {table' : Table O} (hOk : TableOk table)
    (hGet : getAvailableEntry table = some (table', e)) :
    e < maxEntryId ∧ (table.entries e).active = false ∧
      table'.entries = table.entries ∧
      table'.partialId = table.partialId ∧ ∀ obj g, TableOk (table'.fill e obj g) := by
  rcases hOk with ⟨hStart, hAbove, hCount, es, hQueue, hMem⟩
  unfold getAvailableEntry at hGet
  split at hGet
  case isTrue hFresh =>
    obtain ⟨rfl, rfl⟩ := Prod.mk.inj (Option.some.inj hGet)
    have hEntry : table.start < maxEntryId := by omega
    have hInactive := hAbove table.start le_rfl
    refine ⟨hEntry, hInactive, rfl, rfl, fun obj g => ?_⟩
    constructor
    · exact hEntry
    · intro n hn
      rw [Table.active_fill]
      have hLater : table.start + 1 ≤ n := hn
      exact ⟨by omega, hAbove n (by omega)⟩
    · rw [Table.card_fill obj g hEntry ?_]
      · exact congrArg (· - 1) hCount
      · exact hInactive
    · refine ⟨es, ?_, fun n => ?_⟩
      · rw [Table.next_fill]
        exact hQueue
      · rw [hMem, Table.active_fill]
        change _ ↔ n < table.start + 1 ∧ _ ∧ _
        constructor
        · rintro ⟨hn, hFree⟩
          exact ⟨by omega, by omega, hFree⟩
        · rintro ⟨hn, hNe, hFree⟩
          exact ⟨by omega, hFree⟩
  case isFalse hFull =>
    have hStart' : table.start = maxEntryId := by
      by_contra hNot
      exact hFull hNot
    cases hHead : table.fifoHead with
    | none => simp [hHead] at hGet
    | some h =>
      rw [hHead] at hQueue hGet
      rcases hQueue.pop with ⟨rest, rfl, hLast, hMore⟩
      have hBelow := (hMem h).mp (by simp)
      have hEntry : h < maxEntryId := by omega
      have hNodup := List.nodup_cons.mp hQueue.nodup
      have hRest : ∀ n, n ∈ rest ↔ n < table.start ∧ n ≠ h ∧ (table.entries n).active = false := by
        intro n
        have hn := hMem n
        rw [List.mem_cons] at hn
        constructor
        · intro hIn
          rcases hn.mp (Or.inr hIn) with ⟨hLt, hFree⟩
          refine ⟨hLt, ?_, hFree⟩
          rintro rfl
          exact hNodup.1 hIn
        · rintro ⟨hLt, hNe, hFree⟩
          exact (hn.mpr ⟨hLt, hFree⟩).resolve_left hNe
      have hAbove' : ∀ (obj : O) (g n : Nat), table.start ≤ n →
          ((table.fill h obj g).entries n).active = false := by
        intro obj g n hn
        rw [Table.active_fill]
        exact ⟨by omega, hAbove n hn⟩
      have hCount' : ∀ (obj : O) (g : Nat),
          table.freeEntries - 1 = (table.fill h obj g).inactive.card := by
        intro obj g
        rw [Table.card_fill obj g hEntry hBelow.2, hCount]
      cases hNext : (table.entries h).nextInFifo with
      | none =>
        simp only [hNext, Option.some.injEq] at hGet
        obtain ⟨rfl, rfl⟩ := Prod.mk.inj hGet
        have hEmpty := hLast hNext
        subst hEmpty
        refine ⟨hEntry, hBelow.2, rfl, rfl, fun obj g => ?_⟩
        refine ⟨hStart, hAbove' obj g, hCount' obj g, [], Fifo.queue_nil _, fun n => ?_⟩
        rw [Table.active_fill]
        exact hRest n
      | some next =>
        simp only [hNext, Option.some.injEq] at hGet
        obtain ⟨rfl, rfl⟩ := Prod.mk.inj hGet
        have hQueue' := hMore (by simp [hNext])
        refine ⟨hEntry, hBelow.2, rfl, rfl, fun obj g => ?_⟩
        refine ⟨hStart, hAbove' obj g, hCount' obj g, rest, ?_, fun n => ?_⟩
        · rw [Table.next_fill]
          rw [hNext] at hQueue'
          exact hQueue'
        · rw [Table.active_fill]
          exact hRest n

/- A table that gives no entry is full. -/
theorem active_of_getAvailableEntry (hOk : TableOk table)
    (hGet : getAvailableEntry table = none) (hEntry : e < maxEntryId) :
    (table.entries e).active = true := by
  rcases hOk with ⟨hStart, hAbove, hCount, es, hQueue, hMem⟩
  unfold getAvailableEntry at hGet
  split at hGet
  case isTrue hFresh => exact nomatch hGet
  case isFalse hFull =>
    cases hHead : table.fifoHead with
    | some h =>
      cases hNext : (table.entries h).nextInFifo with
      | none => simp [hHead, hNext] at hGet
      | some next => simp [hHead, hNext] at hGet
    | none =>
      have hNone := hQueue.chain.head_eq
      rw [hHead] at hNone
      have hEmpty : es = [] := by
        cases es with
        | nil => rfl
        | cons n ns => exact nomatch hNone
      subst hEmpty
      by_contra hInactive
      have hIn := (hMem e).mpr ⟨by omega, Bool.eq_false_iff.mpr hInactive⟩
      exact nomatch hIn

/- All entries are inactive. -/
theorem Table.card_inactive_iff :
    table.inactive.card = maxEntryId ↔ ∀ e, e < maxEntryId → (table.entries e).active = false := by
  have hAll : table.inactive.card = (Finset.range maxEntryId).card ↔ _ := Finset.card_filter_eq_iff
  rw [Finset.card_range] at hAll
  rw [hAll]
  constructor
  · intro h e he
    exact h e (Finset.mem_range.mpr he)
  · intro h e he
    exact h e (Finset.mem_range.mp he)

/- A new table, with its first entry filled. -/
theorem TableOk.init (partialId : Nat) (hInactive : ∀ e, (table.entries e).active = false) (obj : O)
    (g : Nat) : TableOk ((table.init partialId).fill 0 obj g) := by
  have hNone : (table.init partialId).inactive.card =
      maxEntryId := Table.card_inactive_iff.mpr fun e _ => hInactive e
  constructor
  · exact show 1 ≤ maxEntryId by decide
  · intro e he
    rw [Table.active_fill]
    have hFirst : 1 ≤ e := he
    exact ⟨by omega, hInactive e⟩
  · rw [Table.card_fill obj g (by decide) ?_, hNone]
    · rfl
    · exact hInactive 0
  · refine ⟨[], Fifo.queue_nil _, fun e => ?_⟩
    rw [Table.active_fill]
    change _ ↔ e < 1 ∧ _ ∧ _
    constructor
    · intro hIn
      exact nomatch hIn
    · rintro ⟨hLt, hNe, -⟩
      omega

theorem Table.active_recycle (table : Table O) (e n : Nat) :
    ((table.recycle e).entries n).active = false ↔ n = e ∨ (table.entries n).active = false := by
  have hFreed : ∀ k, ((table.setEntry e
      { table.entries e with
        active := false
        nextInFifo := none }).entries k).active = false ↔
      k = e ∨ (table.entries k).active = false := by
    intro k
    unfold setEntry
    by_cases hSame : k = e
    · subst hSame
      simp
    · simp [hSame]
  unfold recycle
  cases table.fifoTail with
  | none => exact hFreed n
  | some t =>
    by_cases hSame : n = t
    · subst hSame
      rw [← hFreed n]
      dsimp only [setEntry]
      rw [update_self]
    · rw [← hFreed n]
      dsimp only [setEntry]
      rw [update_of_ne hSame]

/- One entry more is without an object. -/
theorem Table.card_recycle (hEntry : e < maxEntryId)
    (hActive : (table.entries e).active = true) :
    (table.recycle e).inactive.card = table.inactive.card + 1 := by
  have hInsert : (table.recycle e).inactive = insert e table.inactive := by
    ext n
    rw [Finset.mem_insert, mem_inactive, mem_inactive, active_recycle]
    constructor
    · rintro ⟨hLt, hSame | hFree⟩
      · exact Or.inl hSame
      · exact Or.inr ⟨hLt, hFree⟩
    · rintro (rfl | ⟨hLt, hFree⟩)
      · exact ⟨hEntry, Or.inl rfl⟩
      · exact ⟨hLt, Or.inr hFree⟩
  have hNew : e ∉ table.inactive := by
    rw [mem_inactive, hActive]
    rintro ⟨-, hFalse⟩
    exact nomatch hFalse
  rw [hInsert, Finset.card_insert_of_notMem hNew]

/- The links of the fifo after an entry is put behind it. -/
theorem Table.next_recycle (table : Table O) (e t : Nat)
    (hTail : table.fifoTail = some t) :
    (fun n => ((table.recycle e).entries n).nextInFifo) = update (update
      (fun n => (table.entries n).nextInFifo) e none) t (some e) := by
  funext n
  unfold recycle
  rw [hTail]
  dsimp only [setEntry]
  by_cases hLast : n = t
  · subst hLast
    rw [update_self, update_self]
  · rw [update_of_ne hLast, update_of_ne hLast]
    by_cases hSame : n = e
    · subst hSame
      rw [update_self, update_self]
    · rw [update_of_ne hSame, update_of_ne hSame]

/- An entry goes back to its table. -/
theorem TableOk.recycle (hOk : TableOk table)
    (hActive : (table.entries e).active = true) : TableOk (table.recycle e) := by
  have hLt := hOk.lt_of_active hActive
  rcases hOk with ⟨hStart, hAbove, hCount, es, hQueue, hMem⟩
  have hEntry : e < maxEntryId := by omega
  have hNew : e ∉ es := by
    intro hIn
    rw [((hMem e).mp hIn).2] at hActive
    exact nomatch hActive
  have hStart' : (table.recycle e).start = table.start := by
    unfold Table.recycle
    cases table.fifoTail <;> rfl
  have hFree' : (table.recycle e).freeEntries = table.freeEntries + 1 := by
    unfold Table.recycle
    cases table.fifoTail <;> rfl
  constructor
  · rw [hStart']
    exact hStart
  · intro n hn
    rw [hStart'] at hn
    rw [Table.active_recycle]
    exact Or.inr (hAbove n hn)
  · rw [hFree', Table.card_recycle hEntry hActive, hCount]
  · refine ⟨es ++ [e], ?_, fun n => ?_⟩
    · cases hTail : table.fifoTail with
      | none =>
        have hEmpty : es = [] := by
          have hLast := hQueue.tail
          rw [hTail] at hLast
          exact List.getLast?_eq_none_iff.mp hLast.symm
        subst hEmpty
        unfold Table.recycle
        rw [hTail]
        refine ⟨⟨rfl, ?_⟩, rfl, by simp⟩
        dsimp only [Table.setEntry]
        rw [update_self]
        rfl
      | some t =>
        rw [Table.next_recycle table e t hTail]
        rw [hTail] at hQueue
        have hPush := hQueue.push hNew
        unfold Table.recycle
        rw [hTail]
        exact hPush
    · rw [List.mem_append, List.mem_singleton, hMem, Table.active_recycle, hStart']
      constructor
      · rintro (⟨hBelow, hFree⟩ | rfl)
        · exact ⟨hBelow, Or.inr hFree⟩
        · exact ⟨hLt, Or.inl rfl⟩
      · rintro ⟨hBelow, rfl | hFree⟩
        · exact Or.inr rfl
        · exact Or.inl ⟨hBelow, hFree⟩

/- A table without an object has all entries free. -/
theorem TableOk.all_inactive (hOk : TableOk table)
    (hFree : table.freeEntries = maxEntryId) (e : Nat) : (table.entries e).active = false := by
  by_cases hEntry : e < maxEntryId
  · rw [hOk.count] at hFree
    exact Table.card_inactive_iff.mp hFree e hEntry
  · exact hOk.above e (by have := hOk.start_le; omega)

end Efl.Eo.Ids
