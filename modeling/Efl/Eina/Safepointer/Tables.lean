import Efl.Eina.Safepointer.Model
import Efl.Lib.Chain

/-
  The ids of entries, and what one table keeps true.

  Main declarations:
    * `InRange`
    * `TableOk`
    * `InRange.injective`
    * `entryFind_spec`
-/

---
-- Taking Ids Apart
---

namespace Efl.Eina.Safepointer

/- The id of an entry with a generation -/
def compose (mid tab e g : Nat) : Nat :=
  composeFinal (composePartial mid tab) e g

/- The numbers that an id is made of -/
structure InRange (mid tab e g : Nat) : Prop where
  mid : mid < 2048
  tab : tab < 2046
  entry : e < 4094
  pos : 0 < g
  generation : g < 2048

theorem shift_or {n k r : Nat} (hRest : r < 2 ^ k) : n <<< k ||| r = n * 2 ^ k + r := by
  rw [← Nat.shiftLeft_add_eq_or_of_lt hRest, Nat.shiftLeft_eq]

theorem and_2047 (n : Nat) : n &&& 2047 = n % 2048 := Nat.and_two_pow_sub_one_eq_mod n 11

theorem and_4095 (n : Nat) : n &&& 4095 = n % 4096 := Nat.and_two_pow_sub_one_eq_mod n 12

theorem composePartial_eq (mid tab : Nat) :
    composePartial mid tab = mid % 2048 * 2 ^ 36 + tab % 2048 * 2 ^ 25 := by
  unfold composePartial
  rw [and_2047, and_2047, shift_or, Nat.shiftLeft_eq]
  rw [Nat.shiftLeft_eq]
  omega

theorem compose_eq (mid tab e g : Nat) :
    compose mid tab e g = mid % 2048 * 2 ^ 36 + (tab % 2048 * 2 ^ 25 +
      (e % 4096 * 2 ^ 13 + g % 2048 * 2 ^ 2)) := by
  unfold compose composeFinal composePartial
  rw [and_2047, and_2047, and_2047, and_4095, Nat.or_assoc,
    Nat.or_assoc, Nat.shiftLeft_eq (g % 2048)]
  have hInner := shift_or (n := e % 4096) (k := 13) (show g % 2048 * 2 ^ 2 < 2 ^ 13 by omega)
  rw [hInner]
  have hMiddle := shift_or (n := tab % 2048) (k := 25)
    (show e % 4096 * 2 ^ 13 + g % 2048 * 2 ^ 2 < 2 ^ 25 by omega)
  rw [hMiddle]
  exact shift_or (by omega)

section

variable {mid tab e g : Nat}

section

variable (hRange : InRange mid tab e g)

include hRange

theorem InRange.midOf_eq : midOf (compose mid tab e g) = mid := by
  rcases hRange with ⟨hMid, hTab, hEntry, hPos, hGen⟩
  unfold midOf
  rw [compose_eq, and_2047, Nat.shiftRight_eq_div_pow]
  omega

theorem InRange.tabOf_eq : tabOf (compose mid tab e g) = tab := by
  rcases hRange with ⟨hMid, hTab, hEntry, hPos, hGen⟩
  unfold tabOf
  rw [compose_eq, and_2047, Nat.shiftRight_eq_div_pow]
  omega

theorem InRange.entryOf_eq : entryOf (compose mid tab e g) = e := by
  rcases hRange with ⟨hMid, hTab, hEntry, hPos, hGen⟩
  unfold entryOf
  rw [compose_eq, and_4095, Nat.shiftRight_eq_div_pow]
  omega

theorem InRange.generationOf_eq : generationOf (compose mid tab e g) = g := by
  rcases hRange with ⟨hMid, hTab, hEntry, hPos, hGen⟩
  unfold generationOf
  rw [compose_eq, and_2047, Nat.shiftRight_eq_div_pow]
  omega

theorem InRange.ne_zero : compose mid tab e g ≠ 0 := by
  rcases hRange with ⟨hMid, hTab, hEntry, hPos, hGen⟩
  rw [compose_eq]
  omega

/- The id tells the numbers. -/
theorem InRange.injective {mid' tab' e' g' : Nat} (hRange' : InRange mid' tab' e' g')
    (hSame : compose mid tab e g = compose mid' tab' e' g') :
    mid = mid' ∧ tab = tab' ∧ e = e' ∧ g = g' := by
  refine ⟨?_, ?_, ?_, ?_⟩
  · rw [← hRange.midOf_eq, hSame, hRange'.midOf_eq]
  · rw [← hRange.tabOf_eq, hSame, hRange'.tabOf_eq]
  · rw [← hRange.entryOf_eq, hSame, hRange'.entryOf_eq]
  · rw [← hRange.generationOf_eq, hSame, hRange'.generationOf_eq]

end

/- The place that a table is told by. -/
theorem midOf_composePartial (hMid : mid < 2048) : midOf (composePartial mid tab) = mid := by
  unfold midOf
  rw [composePartial_eq, and_2047, Nat.shiftRight_eq_div_pow]
  omega

theorem tabOf_composePartial (hTab : tab < 2046) : tabOf (composePartial mid tab) = tab := by
  unfold tabOf
  rw [composePartial_eq, and_2047, Nat.shiftRight_eq_div_pow]
  omega

end

/- What a word is read as, whatever its other bits. -/
def canonical (id : Nat) : Nat :=
  compose (midOf id) (tabOf id) (entryOf id) (generationOf id)

/- The numbers of a word, whatever its other bits -/
theorem canonical_eq (id : Nat) :
    canonical id = midOf id * 2 ^ 36 + (tabOf id * 2 ^ 25 +
      (entryOf id * 2 ^ 13 + generationOf id * 2 ^ 2)) := by
  unfold canonical midOf tabOf entryOf generationOf
  rw [compose_eq, and_2047, and_2047, and_2047, and_4095]
  simp only [Nat.mod_mod]

variable {e g : Nat}

theorem InRange.canonical_parts {mid tab id : Nat} (hRange : InRange mid tab e g)
    (hSame : compose mid tab e g = canonical id) :
    mid = midOf id ∧ tab = tabOf id ∧ e = entryOf id ∧ g = generationOf id := by
  rcases hRange with ⟨hMid, hTab, hEntry, hPos, hGen⟩
  rw [canonical_eq, compose_eq] at hSame
  have hTab' : tabOf id < 2048 := by
    rw [tabOf, and_2047]
    exact Nat.mod_lt _ (by decide)
  have hEntry' : entryOf id < 4096 := by
    rw [entryOf, and_4095]
    exact Nat.mod_lt _ (by decide)
  have hGen' : generationOf id < 2048 := by
    rw [generationOf, and_2047]
    exact Nat.mod_lt _ (by decide)
  omega

/- The generations go round. -/
theorem advance_iterate (k : Nat) (hPos : 0 < g) (hLess : g < 2048) :
    advance^[k] g = (g - 1 + k) % 2047 + 1 := by
  induction k with
  | zero =>
    rw [Function.iterate_zero, id_eq]
    omega
  | succ k ih =>
    rw [Function.iterate_succ_apply', ih]
    unfold advance maxGenerations
    split <;> omega

theorem advance_range (hLess : g < 2048) : 0 < advance g ∧ advance g < 2048 := by
  unfold advance maxGenerations
  split <;> omega

/- A generation comes back after 2047 others. -/
theorem advance_iterate_eq {k : Nat} (hPos : 0 < g) (hLess : g < 2048)
    (hFew : k < 2047) (hSame : advance^[k] g = g) : k = 0 := by
  rw [advance_iterate k hPos hLess] at hSame
  omega

---
-- One Table
---

open List Function
variable {T : Type}

/- The entry after one that is in the trash -/
def Entry.next (entry : Entry T) : Option Nat :=
  match entry.ptr with
  | .target _ => none
  | .trash next => next

/- The unused entries of a table are in its trash. -/
structure Trashed (table : Table T) (es : List Nat) : Prop where
  seg :
    Chain.Seg (fun e => (table.entries e).next) table.trash es
  nodup : es.Nodup
  mem :
    ∀ e, e ∈ es ↔
      e < table.start ∧ (table.entries e).active = false
  links :
    ∀ e ∈ es, ∃ next, (table.entries e).ptr = .trash next

/- What an active entry has -/
structure Entry.Held (entry : Entry T) : Prop where
  generation : 0 < entry.generation
  target : ∃ t, entry.ptr = .target t

/- A table is in order. -/
structure TableOk (table : Table T) : Prop where
  start_le : table.start ≤ 4094
  trash : ∃ es, Trashed table es
  held :
    ∀ e, (table.entries e).active = true →
      e < table.start ∧ (table.entries e).Held
  generation : ∀ e, (table.entries e).generation < 2048

theorem Table.zero_ok : TableOk (Table.zero : Table T) := by
  refine ⟨Nat.zero_le _, ⟨[], rfl, nodup_nil, ?_, ?_⟩, ?_, ?_⟩
  · intro e
    constructor
    · intro hMem
      exact absurd hMem not_mem_nil
    · intro hLess
      exact absurd hLess.1 (Nat.not_lt_zero e)
  · intro e hMem
    exact absurd hMem not_mem_nil
  · intro e hActive
    exact nomatch hActive
  · intro e
    exact show 0 < 2048 by decide

variable {table : Table T}

/- The number of the place does not matter. -/
theorem TableOk.partialId (hOk : TableOk table) (id : Nat) :
    TableOk { table with partialId := id } := by
  rcases hOk with ⟨hStart, ⟨es, hSeg, hNodup, hMem, hLinks⟩, hHeld, hGen⟩
  exact ⟨hStart, ⟨es, hSeg, hNodup, hMem, hLinks⟩, hHeld, hGen⟩

section

variable (table : Table T) (e : Nat) (entry : Entry T)

@[simp] theorem Table.entries_setEntry :
    (table.setEntry e entry).entries = update table.entries e entry := rfl

@[simp] theorem Table.start_setEntry : (table.setEntry e entry).start = table.start := rfl

@[simp] theorem Table.trash_setEntry : (table.setEntry e entry).trash = table.trash := rfl

@[simp] theorem Table.partialId_setEntry : (table.setEntry e entry).partialId = table.partialId :=
  rfl

end

/- Entries outside of a chain do not matter for it. -/
theorem seg_setEntry {p : Option Nat} {es : List Nat} (entry : Entry T)
    (hSeg : Chain.Seg (fun e => (table.entries e).next) p es)
    (hOut : e ∉ es) : Chain.Seg (fun n => ((table.setEntry e entry).entries n).next) p es := by
  apply hSeg.congr
  intro n hMem
  rw [Table.entries_setEntry, update_of_ne]
  rintro rfl
  exact hOut hMem

/- A table whose other entries are unused is filled. -/
theorem TableOk.fill {es : List Nat} (t : T)
    (hStart : table.start ≤ 4094) (hSeg :
      Chain.Seg (fun e => (table.entries e).next) table.trash es)
    (hNodup : es.Nodup) (hLess : e < table.start)
    (hMem : ∀ n, n ∈ es ↔ n < table.start ∧ n ≠ e ∧ (table.entries n).active = false)
    (hLinks : ∀ n ∈ es, ∃ next, (table.entries n).ptr = .trash next)
    (hHeld : ∀ n, (table.entries n).active = true →
      n < table.start ∧ (table.entries n).Held)
    (hGen : ∀ n, (table.entries n).generation < 2048) (hPos : 0 < g)
    (hBound : g < 2048) : TableOk (table.setEntry e ⟨.target t, true, g⟩) := by
  have hOut : e ∉ es := fun hIn => ((hMem e).mp hIn).2.1 rfl
  refine ⟨hStart, ⟨es, ?_, hNodup, ?_, ?_⟩, ?_, ?_⟩
  · exact seg_setEntry _ hSeg hOut
  · intro n
    rw [hMem, Table.entries_setEntry, Table.start_setEntry]
    by_cases hSame : n = e
    · subst hSame
      rw [update_self]
      constructor
      · intro h
        exact absurd rfl h.2.1
      · intro h
        exact nomatch h.2
    · rw [update_of_ne hSame]
      tauto
  · intro n hIn
    rw [Table.entries_setEntry, update_of_ne]
    · exact hLinks n hIn
    · rintro rfl
      exact hOut hIn
  · intro n
    rw [Table.entries_setEntry]
    by_cases hSame : n = e
    · subst hSame
      rw [update_self]
      exact fun _ => ⟨hLess, hPos, t, rfl⟩
    · rw [update_of_ne hSame]
      exact hHeld n
  · intro n
    rw [Table.entries_setEntry]
    by_cases hSame : n = e
    · subst hSame
      rw [update_self]
      exact hBound
    · rw [update_of_ne hSame]
      exact hGen n

/- A table with room gives an unused entry. -/
theorem entryFind_spec (hOk : TableOk table)
    (hRoom : table.hasRoom = true) :
    ∃ table' e, entryFind table = some (table', some e) ∧
      e < 4094 ∧ (table.entries e).active = false ∧
      table'.entries = table.entries ∧
      table'.partialId = table.partialId ∧
      ∀ t g, 0 < g → g < 2048 → TableOk (table'.setEntry e ⟨.target t, true, g⟩) := by
  rcases hOk with ⟨hStart, ⟨es, hSeg, hNodup, hMem, hLinks⟩, hHeld, hGen⟩
  cases hTrash : table.trash with
  | some e =>
    rw [hTrash] at hSeg
    rcases hSeg.pop with ⟨rest, rfl, hRest⟩
    rcases hLinks e mem_cons_self with ⟨next, hPtr⟩
    have hUnused := (hMem e).mp mem_cons_self
    rcases nodup_cons.mp hNodup with ⟨hOut, hTail⟩
    refine ⟨{ table with trash := next }, e, ?_, by omega, hUnused.2, rfl, rfl, ?_⟩
    · unfold entryFind
      rw [hTrash]
      simp only [hPtr]
    · intro t g hPos hBound
      refine TableOk.fill t hStart ?_ hTail hUnused.1 ?_ ?_ hHeld hGen hPos hBound
      · simp only [Entry.next, hPtr] at hRest
        exact hRest
      · intro n
        have hCons := hMem n
        rw [mem_cons] at hCons
        dsimp only
        constructor
        · intro hIn
          have hBoth := hCons.mp (Or.inr hIn)
          refine ⟨hBoth.1, ?_, hBoth.2⟩
          rintro rfl
          exact hOut hIn
        · rintro ⟨hLess, hNe, hInactive⟩
          rcases hCons.mpr ⟨hLess, hInactive⟩ with rfl | hIn
          · exact absurd rfl hNe
          · exact hIn
      · intro n hIn
        exact hLinks n (mem_cons_of_mem e hIn)
  | none =>
    have hLess : table.start < 4094 := by
      unfold Table.hasRoom maxEntryId at hRoom
      rw [hTrash] at hRoom
      simpa using hRoom
    have hUnused : (table.entries table.start).active = false := by
      by_contra hActive
      rw [Bool.not_eq_false] at hActive
      exact absurd (hHeld _ hActive).1 (Nat.lt_irrefl _)
    refine ⟨{ table with start := table.start + 1 }, table.start, ?_, hLess, hUnused, rfl, rfl, ?_⟩
    · unfold entryFind
      rw [hTrash]
      exact if_pos hLess
    · intro t g hPos hBound
      refine TableOk.fill t hLess hSeg hNodup (Nat.lt_succ_self _) ?_ hLinks ?_ hGen hPos hBound
      · intro n
        rw [hMem]
        dsimp only
        constructor
        · rintro ⟨hBelow, hInactive⟩
          exact ⟨by omega, by omega, hInactive⟩
        · rintro ⟨hBelow, hNe, hInactive⟩
          exact ⟨by omega, hInactive⟩
      · intro n hActive
        have hBoth := hHeld n hActive
        exact ⟨Nat.lt_succ_of_lt hBoth.1, hBoth.2⟩

@[simp] theorem Table.entries_recycle (table : Table T) (e : Nat) :
    (table.recycle e).entries = update table.entries e
      ⟨.trash table.trash, false, (table.entries e).generation⟩ := rfl

section

variable (hOk : TableOk table)

include hOk

/- An entry in use goes back to the trash. -/
theorem TableOk.recycle
    (hActive : (table.entries e).active = true) : TableOk (table.recycle e) := by
  rcases hOk with ⟨hStart, ⟨es, hSeg, hNodup, hMem, hLinks⟩, hHeld, hGen⟩
  have hOut : e ∉ es := by
    intro hIn
    have hUnused := ((hMem e).mp hIn).2
    rw [hActive] at hUnused
    exact nomatch hUnused
  refine ⟨hStart, ⟨e :: es, ?_, nodup_cons.mpr ⟨hOut, hNodup⟩, ?_, ?_⟩, ?_, ?_⟩
  · have hNext : ((table.recycle e).entries e).next = table.trash := by
      rw [Table.entries_recycle, update_self]
      rfl
    refine ⟨rfl, ?_⟩
    dsimp only
    rw [hNext]
    exact seg_setEntry _ hSeg hOut
  · intro n
    rw [mem_cons, Table.entries_recycle, hMem]
    change _ ↔ n < table.start ∧ _
    by_cases hSame : n = e
    · subst hSame
      rw [update_self]
      have hBelow := (hHeld n hActive).1
      tauto
    · rw [update_of_ne hSame]
      tauto
  · intro n hIn
    rw [Table.entries_recycle]
    by_cases hSame : n = e
    · subst hSame
      rw [update_self]
      exact ⟨_, rfl⟩
    · rw [update_of_ne hSame]
      exact hLinks n (mem_of_ne_of_mem hSame hIn)
  · intro n hIs
    rw [Table.entries_recycle] at hIs ⊢
    by_cases hSame : n = e
    · subst hSame
      rw [update_self] at hIs
      exact nomatch hIs
    · rw [update_of_ne hSame] at hIs ⊢
      exact hHeld n hIs
  · intro n
    rw [Table.entries_recycle]
    by_cases hSame : n = e
    · subst hSame
      rw [update_self]
      exact hGen n
    · rw [update_of_ne hSame]
      exact hGen n

/- Without room, all entries are in use. -/
theorem TableOk.active_of_full
    (hFull : table.hasRoom = false) (hLess : e < 4094) : (table.entries e).active = true := by
  rcases hOk.trash with ⟨es, hSeg, -, hMem, -⟩
  unfold Table.hasRoom maxEntryId at hFull
  rw [Bool.or_eq_false_iff, decide_eq_false_iff_not,
    Option.isSome_eq_false_iff, Option.isNone_iff_eq_none] at hFull
  rcases hFull with ⟨hTrash, hEnd⟩
  have hNone : es = [] := by
    rw [hTrash] at hSeg
    cases es with
    | nil => rfl
    | cons n es => exact nomatch hSeg.1
  by_contra hInactive
  rw [Bool.not_eq_true] at hInactive
  have hIn := (hMem e).mpr ⟨by omega, hInactive⟩
  rw [hNone] at hIn
  exact absurd hIn not_mem_nil

/- Without an active entry, there is room. -/
theorem TableOk.room_of_inactive
    (hNone : ∀ e, (table.entries e).active = false) : table.hasRoom = true := by
  by_contra hFull
  rw [Bool.not_eq_true] at hFull
  have hActive := hOk.active_of_full hFull (show 0 < 4094 by decide)
  rw [hNone] at hActive
  exact nomatch hActive

/- What the search for active entries tells -/
theorem TableOk.inactive_of_idle
    (hIdle : table.idle (maxEntryId - 1) = true) (e : Nat) : (table.entries e).active = false := by
  by_contra hActive
  rw [Bool.not_eq_false] at hActive
  have hLess := (hOk.held e hActive).1
  have hStart := hOk.start_le
  unfold Table.idle at hIdle
  rw [List.all_eq_true] at hIdle
  have hNot := hIdle e (mem_range.mpr (show e < maxEntryId - 1 + 1 by unfold maxEntryId; omega))
  rw [hActive] at hNot
  exact nomatch hNot

end

end Efl.Eina.Safepointer
