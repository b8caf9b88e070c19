import Mathlib.Tactic.ByContra

/-
  Binary search with a three-way comparison.

  The comparison with what is searched is a function of the
  position.  A loop that keeps `Search.Inv` stops at a
  `Search.Bracket`, which tells where a new element belongs.

  Main declarations:
    * `Search.Ascending`
    * `Search.Inv`
    * `Search.Inv.right`, `Search.Inv.left`, `Search.Inv.stop`
    * `Search.Bracket.place`
-/

---
-- The Loop
---

namespace Efl.Search

/- The comparison with the first `n` elements is sorted. -/
structure Ascending (probe : Nat → Int) (n : Nat) : Prop where
  neg : ∀ i j, i ≤ j → j < n → probe j < 0 → probe i < 0
  pos : ∀ i j, i ≤ j → j < n → 0 < probe i → 0 < probe j

/- What the search in a window finds. -/
def Bracket (probe : Nat → Int) (lo hi cur : Nat) : Prop :=
  probe cur = 0 ∨
    (probe cur < 0 ∧ ∀ j, cur < j → j ≤ hi → 0 < probe j) ∨
    (0 < probe cur ∧ ∀ j, lo ≤ j → j < cur → probe j < 0)

/-
  The loop searches from `inf` to `sup`, and has last looked
  at `cur`.
-/
structure Inv (probe : Nat → Int) (lo hi inf sup cur : Nat) : Prop where
  lo_le : lo ≤ inf
  le_hi : sup ≤ hi
  below : ∀ j, lo ≤ j → j < inf → probe j < 0
  above : ∀ j, sup < j → j ≤ hi → 0 < probe j
  last : inf ≤ sup ∨ (probe cur < 0 ∧ inf = cur + 1) ∨
    (0 < probe cur ∧ sup + 1 = cur)

variable {probe : Nat → Int} {n lo hi inf sup cur : Nat}

theorem inv_start (hWindow : lo ≤ hi) : Inv probe lo hi lo hi cur :=
  ⟨Nat.le_refl _, Nat.le_refl _, by omega, by omega, .inl hWindow⟩

section

variable (hInv : Inv probe lo hi inf sup cur)

include hInv

/- The element looked at is smaller. -/
theorem Inv.right {mid : Nat} (hAscending : Ascending probe n) (hHi : hi < n) (hInf : inf ≤ mid)
    (hSup : mid ≤ sup) (hNeg : probe mid < 0) : Inv probe lo hi (mid + 1) sup mid where
  lo_le := by have := hInv.lo_le; omega
  le_hi := hInv.le_hi
  below j hLo hj := by
    have hLe := hInv.le_hi
    exact hAscending.neg j mid (by omega) (by omega) hNeg
  above := hInv.above
  last := .inr (.inl ⟨hNeg, rfl⟩)

/- The element looked at is larger. -/
theorem Inv.left {mid : Nat} (hAscending : Ascending probe n) (hHi : hi < n) (hSup : mid ≤ sup)
    (hFirst : 0 < mid) (hPos : 0 < probe mid) : Inv probe lo hi inf (mid - 1) mid where
  lo_le := hInv.lo_le
  le_hi := by have := hInv.le_hi; omega
  below := hInv.below
  above j hj hLe := hAscending.pos mid j (by omega) (by omega) hPos
  last := .inr (.inr ⟨hPos, by omega⟩)

theorem Inv.stop (hDone : sup < inf) : Bracket probe lo hi cur := by
  rcases hInv.last with hLess | ⟨hNeg, hInf⟩ | ⟨hPos, hSup⟩
  · omega
  · refine .inr (.inl ⟨hNeg, ?_⟩)
    intro j hj hLe
    exact hInv.above j (by omega) hLe
  · refine .inr (.inr ⟨hPos, ?_⟩)
    intro j hLo hj
    exact hInv.below j hLo (by omega)

end

/- The place of a new element. -/
def place (probe : Nat → Int) (cur : Nat) : Nat :=
  if probe cur ≤ 0 then cur + 1 else cur

/-
  If what is searched belongs into the window, then the
  elements before its place are not larger, and those from
  there on are not smaller.
-/
theorem Bracket.place_spec (hBracket : Bracket probe lo hi cur)
    (hAscending : Ascending probe n) (hCur : cur < n) (hBelow : ∀ j, j < lo → probe j ≤ 0)
    (hAbove : ∀ j, hi < j → j < n → 0 ≤ probe j) :
    (∀ j, j < place probe cur → probe j ≤ 0) ∧ ∀ j, place probe cur ≤ j → j < n → 0 ≤ probe j := by
  have hLow : ∀ j, j ≤ cur → probe cur ≤ 0 → probe j ≤ 0 := by
    intro j hj hLe
    by_contra hNot
    have := hAscending.pos j cur hj hCur (by omega)
    omega
  have hHigh : ∀ j, cur ≤ j → j < n → 0 ≤ probe cur → 0 ≤ probe j := by
    intro j hj hn hLe
    by_contra hNot
    have := hAscending.neg cur j hj hn (by omega)
    omega
  unfold place
  split
  · rename_i hLe
    refine ⟨fun j hj => hLow j (by omega) hLe, ?_⟩
    intro j hj hn
    rcases hBracket with hZero | ⟨hNeg, hRight⟩ | ⟨hPos, -⟩
    · exact hHigh j (by omega) hn (by omega)
    · rcases Nat.lt_or_ge hi j with hOut | hIn
      · exact hAbove j hOut hn
      · have := hRight j (by omega) hIn
        omega
    · omega
  · rename_i hNot
    refine ⟨?_, fun j hj hn => hHigh j hj hn (by omega)⟩
    intro j hj
    rcases hBracket with hZero | ⟨hNeg, -⟩ | ⟨hPos, hLeft⟩
    · omega
    · omega
    · rcases Nat.lt_or_ge j lo with hOut | hIn
      · exact hBelow j hOut
      · have := hLeft j hIn hj
        omega

end Efl.Search
