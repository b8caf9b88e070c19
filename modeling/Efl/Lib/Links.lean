import Mathlib.Data.Fintype.Pigeonhole
import Mathlib.Data.Fintype.Card

/-
  A table of links: each entry has the index of the next one,
  or -1 at the end of a chain.

  Main declarations:
    * `Links.walk`
    * `Links.Valid`
    * `Links.walk_valid`
    * `Links.walk_append`
-/

---
-- Walks
---

namespace Efl.Links

open List

/- The link of an entry; there is none behind the end. -/
def next (links : List Int) (c : Int) : Int :=
  if 0 ≤ c then links.getD c.toNat (-1) else -1

/- Follow the links for some steps. -/
def walk (links : List Int) : Nat → Int → Int
  | 0, c => c
  | k + 1, c => walk links k (next links c)

/- The end, or the index of an entry. -/
def Valid (links : List Int) (c : Int) : Prop :=
  c = -1 ∨ 0 ≤ c ∧ c < links.length

/- All links are valid. -/
def AllValid (links : List Int) : Prop :=
  ∀ l ∈ links, Valid links l

variable {links : List Int}

@[simp] theorem next_end : next links (-1) = -1 := rfl

@[simp] theorem walk_end (k : Nat) : walk links k (-1) = -1 := by
  induction k with
  | zero => rfl
  | succ k ih => exact ih

theorem walk_add (a b : Nat) (c : Int) : walk links (a + b) c = walk links b (walk links a c) := by
  induction a generalizing c with
  | zero => rw [Nat.zero_add]; rfl
  | succ a ih =>
    rw [Nat.succ_add]
    exact ih (next links c)

variable {c : Int}

theorem next_of_getElem? {l : Int} (hLow : 0 ≤ c)
    (hLink : links[c.toNat]? = some l) : next links c = l := by
  unfold next
  rw [if_pos hLow, getD_eq_getElem?_getD, hLink]
  rfl

theorem next_valid (hAll : AllValid links) (hValid : Valid links c) :
    Valid links (next links c) := by
  rcases hValid with rfl | ⟨hLow, hHigh⟩
  · exact Or.inl rfl
  · have hIndex : c.toNat < links.length := by omega
    rw [next_of_getElem? hLow (getElem?_eq_getElem hIndex)]
    exact hAll _ (getElem_mem hIndex)

theorem walk_valid (k : Nat) (hAll : AllValid links)
    (hValid : Valid links c) : Valid links (walk links k c) := by
  induction k generalizing c with
  | zero => exact hValid
  | succ k ih => exact ih (next_valid hAll hValid)

/- A chain that has ended stays at its end. -/
theorem walk_end_of_le {a b : Nat} (hEnd : walk links a c = -1)
    (hLe : a ≤ b) : walk links b c = -1 := by
  rw [show b = a + (b - a) by omega, walk_add, hEnd, walk_end]

/- One more entry does not change the chains of the others. -/
theorem walk_append (l : Int) (k : Nat) (hAll : AllValid links)
    (hValid : Valid links c) : walk (links ++ [l]) k c = walk links k c := by
  induction k generalizing c with
  | zero => rfl
  | succ k ih =>
    have hNext : next (links ++ [l]) c = next links c := by
      rcases hValid with rfl | ⟨hLow, hHigh⟩
      · rfl
      · have hIndex : c.toNat < links.length := by omega
        have hLink := getElem?_eq_getElem hIndex
        rw [next_of_getElem? hLow hLink, next_of_getElem? hLow
            ((getElem?_append_left hIndex).trans hLink)]
    unfold walk
    rw [hNext]
    exact ih (next_valid hAll hValid)

/- A chain that returns to an entry goes on so for ever. -/
theorem walk_period {a d : Nat} (k : Nat)
    (hSame : walk links (a + d) c = walk links a c) :
    walk links (a + k * d) c = walk links a c := by
  induction k with
  | zero => rw [Nat.zero_mul, Nat.add_zero]
  | succ k ih =>
    rw [Nat.add_mul, Nat.one_mul, ← Nat.add_assoc, walk_add, ih, ← walk_add, hSame]

/-
  A chain of valid links ends within the length of the table
  when no entry is met twice.
-/
theorem ends_iff_no_repeat (hAll : AllValid links)
    (hValid : Valid links c) :
    walk links links.length c = -1 ↔
      ∀ a b, a < b → walk links a c = walk links b c → walk links a c = -1 := by
  constructor
  · intro hEnd a b hLess hSame
    have hPeriod := walk_period (a := a) (d := b - a) (c := c)
      links.length (by
        rw [show a + (b - a) = b by omega]
        exact hSame.symm)
    rw [← hPeriod]
    apply walk_end_of_le hEnd
    have hMul : links.length * 1 ≤ links.length * (b - a) := Nat.mul_le_mul_left _ (by omega)
    omega
  · intro hOnce
    by_contra hOpen
    -- The entries met are one more than those there are.
    have hInside : ∀ k ≤ links.length, 0 ≤ walk links k c ∧ walk links k c < links.length := by
      intro k hk
      refine (walk_valid k hAll hValid).resolve_left ?_
      intro hEnd
      exact hOpen (walk_end_of_le hEnd hk)
    let met (k : Fin (links.length + 1)) : Fin links.length :=
      ⟨(walk links k c).toNat, by
        have hk := hInside k (by omega)
        omega⟩
    rcases Fintype.exists_ne_map_eq_of_card_lt met (by simp) with ⟨a, b, hne, hSame⟩
    have ha := hInside a (by omega)
    have hb := hInside b (by omega)
    have hEq : walk links a c = walk links b c := by
      have hNat : (walk links a c).toNat = (walk links b c).toNat := congrArg Fin.val hSame
      omega
    have hVal : (a : Nat) ≠ b := fun h => hne (Fin.ext h)
    rcases Nat.lt_or_gt_of_ne hVal with hLess | hLess
    · have hEnd := hOnce a b hLess hEq
      omega
    · have hEnd := hOnce b a hLess hEq.symm
      omega

end Efl.Links
