import Mathlib.Algebra.Order.Group.Nat
import Mathlib.Data.Nat.ModEq

/-
  Little-endian words in a memory of bytes.

  Main declarations:
    * `Words.load`, `Words.store`
    * `Words.load_store`
    * `Words.load_congr`
-/

---
-- Words
---

namespace Efl.Words

/- The word of `n` bytes at an address -/
def load (mem : Nat → Nat) : Nat → Nat → Nat
  | _, 0 => 0
  | a, n + 1 => mem a % 256 + 256 * load mem (a + 1) n

/- The memory with a word of `n` bytes at an address -/
def store (mem : Nat → Nat) (a n w : Nat) : Nat → Nat :=
  fun b =>
    if a ≤ b ∧ b < a + n then w / 256 ^ (b - a) % 256 else mem b

theorem store_of_outside {mem : Nat → Nat} {a n w b : Nat}
    (hOutside : b < a ∨ a + n ≤ b) : store mem a n w b = mem b := by
  unfold store
  rw [if_neg]
  omega

/- Only the bytes of the word matter. -/
theorem load_congr {mem mem' : Nat → Nat} {a n : Nat}
    (hSame : ∀ b, a ≤ b → b < a + n → mem' b = mem b) : load mem' a n = load mem a n := by
  induction n generalizing a with
  | zero => rfl
  | succ n ih =>
    unfold load
    rw [hSame a (Nat.le_refl a) (by omega)]
    rw [ih fun b hLow hHigh => hSame b (by omega) (by omega)]

/- Bytes that are those of a number -/
theorem load_eq {mem : Nat → Nat} {a n w : Nat}
    (hBytes : ∀ i < n, mem (a + i) = w / 256 ^ i % 256) : load mem a n = w % 256 ^ n := by
  induction n generalizing a w with
  | zero => simp [load, Nat.mod_one]
  | succ n ih =>
    have hFirst : mem a = w % 256 := by
      simpa using hBytes 0 (Nat.succ_pos n)
    have hRest : load mem (a + 1) n = w / 256 % 256 ^ n := by
      apply ih
      intro i hi
      have hNext := hBytes (i + 1) (Nat.succ_lt_succ hi)
      rw [show a + 1 + i = a + (i + 1) by omega, hNext,
        Nat.div_div_eq_div_mul, Nat.pow_succ, Nat.mul_comm 256]
    unfold load
    rw [hFirst, hRest, Nat.mod_mod, Nat.pow_succ, Nat.mul_comm _ 256, Nat.mod_mul]

theorem load_store (mem : Nat → Nat) (a : Nat) {n w : Nat}
    (hWord : w < 256 ^ n) : load (store mem a n w) a n = w := by
  rw [load_eq (w := w), Nat.mod_eq_of_lt hWord]
  intro i hi
  unfold store
  rw [if_pos (by omega), Nat.add_sub_cancel_left]

end Efl.Words
