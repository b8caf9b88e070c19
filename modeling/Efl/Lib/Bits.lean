import Mathlib.Data.Nat.Digits.Defs

/-
  The number of one bits.

  A counter that is incremented changes the bits up to its
  lowest zero.  Taking the lowest one bit away is `&&&` with
  the number before.

  Main declarations:
    * `Bits.ones`
    * `Bits.ones_le`
    * `Bits.ones_succ`
-/

namespace Efl.Bits

def ones (n : Nat) : Nat :=
  (Nat.digits 2 n).sum

@[simp] theorem ones_zero : ones 0 = 0 := by
  simp [ones]

theorem ones_eq (n : Nat) : ones n = n % 2 + ones (n / 2) := by
  rcases Nat.eq_zero_or_pos n with rfl | hPos
  · simp
  · rw [ones, Nat.digits_def' (by decide) hPos, List.sum_cons]
    rfl

/- One at most for each bit. -/
theorem ones_le {n k : Nat} (hLess : n < 2 ^ k) : ones n ≤ k := by
  induction k generalizing n with
  | zero =>
    obtain rfl : n = 0 := by simpa using hLess
    simp
  | succ k ih =>
    have hHalf := ih (n := n / 2) (by
      rw [Nat.pow_succ] at hLess
      omega)
    rw [ones_eq]
    omega

theorem ones_le_self (n : Nat) : ones n ≤ n := by
  induction n using Nat.strong_induction_on with
  | h n ih =>
    rcases Nat.eq_zero_or_pos n with rfl | hPos
    · simp
    · have hHalf := ih (n / 2) (by omega)
      rw [ones_eq]
      omega

theorem ones_pos {n : Nat} (hPos : 0 < n) : 0 < ones n := by
  induction n using Nat.strong_induction_on with
  | h n ih =>
    rw [ones_eq]
    by_cases hHalf : 0 < n / 2
    · have hRest := ih (n / 2) (by omega) hHalf
      omega
    · omega

/- The increment turns all changed bits but one to zero. -/
theorem ones_succ (n : Nat) : ones (n + 1) + ones ((n + 1) ^^^ n) = ones n + 2 := by
  induction n using Nat.strong_induction_on with
  | h n ih =>
    have hXor := ones_eq ((n + 1) ^^^ n)
    have hOdd : ((n + 1) ^^^ n) % 2 = 1 := by
      rw [Nat.xor_mod_two_eq_one]
      omega
    rw [hOdd, Nat.xor_div_two] at hXor
    have hNext := ones_eq (n + 1)
    have hThis := ones_eq n
    rcases Nat.even_or_odd' n with ⟨k, rfl | rfl⟩
    · rw [show (2 * k + 1) / 2 = k by omega,
        show 2 * k / 2 = k by omega, Nat.xor_self, ones_zero] at hXor
      rw [show (2 * k + 1) / 2 = k by omega] at hNext
      rw [show 2 * k / 2 = k by omega] at hThis
      omega
    · have hHalf := ih k (by omega)
      rw [show (2 * k + 1 + 1) / 2 = k + 1 by omega,
        show (2 * k + 1) / 2 = k by omega] at hXor
      rw [show (2 * k + 1 + 1) / 2 = k + 1 by omega] at hNext
      rw [show (2 * k + 1) / 2 = k by omega] at hThis
      omega

/- The lowest one bit is taken away. -/
theorem ones_and_pred {n : Nat} (hPos : 0 < n) : ones (n &&& (n - 1)) + 1 = ones n := by
  induction n using Nat.strong_induction_on with
  | h n ih =>
    have hAnd := ones_eq (n &&& (n - 1))
    have hEven : (n &&& (n - 1)) % 2 = 0 := by
      have hNot : ¬ (n &&& (n - 1)) % 2 = 1 := by
        rw [Nat.and_mod_two_eq_one]
        omega
      omega
    rw [hEven, Nat.and_div_two] at hAnd
    have hThis := ones_eq n
    rcases Nat.even_or_odd' n with ⟨k, rfl | rfl⟩
    · have hHalf := ih k (by omega) (by omega)
      rw [show 2 * k / 2 = k by omega,
        show (2 * k - 1) / 2 = k - 1 by omega] at hAnd
      rw [show 2 * k / 2 = k by omega] at hThis
      omega
    · rw [show (2 * k + 1) / 2 = k by omega,
        show (2 * k + 1 - 1) / 2 = k by omega, Nat.and_self] at hAnd
      rw [show (2 * k + 1) / 2 = k by omega] at hThis
      omega

end Efl.Bits
