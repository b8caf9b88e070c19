import Mathlib.Algebra.Order.Group.Nat

/-
  Arithmetic of the 64-bit `size_t` on numbers.

  Main declarations:
    * `CSize.bound`
    * `CSize.add`, `CSize.sub`, `CSize.mul`
    * `CSize.add_of_lt`, `CSize.sub_of_le`
-/

---
-- Wrapping
---

namespace Efl.CSize

/- The number of values -/
def bound : Nat :=
  18446744073709551616

/- The largest size of a block, `PTRDIFF_MAX` -/
def blockMax : Nat :=
  9223372036854775807

def add (a b : Nat) : Nat :=
  (a + b) % bound

def sub (a b : Nat) : Nat :=
  (a + (bound - b)) % bound

def mul (a b : Nat) : Nat :=
  a * b % bound

theorem add_of_lt {a b : Nat} (hSum : a + b < bound) : add a b = a + b := Nat.mod_eq_of_lt hSum

theorem sub_of_le {a b : Nat} (hLe : b ≤ a) (hBound : a < bound) : sub a b = a - b := by
  unfold sub
  rw [show a + (bound - b) = (a - b) + bound by omega,
    Nat.add_mod_right, Nat.mod_eq_of_lt (by omega)]

end Efl.CSize
