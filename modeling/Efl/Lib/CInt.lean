import Mathlib.Tactic.Ring

/-
  Signed 32-bit arithmetic on integers.

  Main declarations:
    * `CInt.wrap`
    * `CInt.InRange`
    * `CInt.wrap_of_inRange`
    * `CInt.inRange_wrap`
-/

---
-- Wrapping
---

namespace Efl.CInt

/- The largest value, `INT_MAX`. -/
def intMax : Int :=
  2147483647

/- The value that 32 bits of two's complement keep. -/
def wrap (x : Int) : Int :=
  (x + 2147483648) % 4294967296 - 2147483648

/- The values of a 32-bit `int`. -/
def InRange (x : Int) : Prop :=
  -2147483648 ≤ x ∧ x ≤ 2147483647

instance (x : Int) : Decidable (InRange x) :=
  inferInstanceAs (Decidable (_ ∧ _))

theorem wrap_of_inRange {x : Int} (hRange : InRange x) : wrap x = x := by
  unfold InRange at hRange
  unfold wrap
  omega

theorem inRange_wrap (x : Int) : InRange (wrap x) := by
  unfold InRange wrap
  omega

/- A sum that is too large by less than one turn. -/
theorem wrap_of_gt {x : Int} (hLow : intMax < x)
    (hHigh : x ≤ intMax + 4294967296) : wrap x = x - 4294967296 := by
  unfold intMax at hLow hHigh
  unfold wrap
  omega

end Efl.CInt
