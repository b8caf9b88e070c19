import Efl.Lib.CSize

/-
  The rounding of the sizes of buffers, which is the same in a
  queue and in a buffer.

  Main declarations:
    * `rounded`
    * `lt_rounded`, `rounded_le`
-/

namespace Efl.Io

/- The size that the `_realloc_rounded` functions ask for -/
def rounded (size : Nat) : Nat :=
  if 0 < size ∧ size < 128 then
    CSize.mul (size / 32 + 1) 32
  else if size < 1024 then
    CSize.mul (size / 128 + 1) 128
  else if size < 8192 then
    CSize.mul (size / 1024 + 1) 1024
  else
    CSize.mul (size / 4096 + 1) 4096

/- A size whose next multiple of 4096 is a `size_t` -/
def Roundable (size : Nat) : Prop :=
  size + 4096 < CSize.bound

instance (size : Nat) : Decidable (Roundable size) :=
  inferInstanceAs (Decidable (_ < _))

theorem lt_rounded {size : Nat} (hRound : Roundable size) : size < rounded size := by
  unfold Roundable CSize.bound at hRound
  unfold rounded CSize.mul CSize.bound
  split
  · omega
  · split
    · omega
    · split <;> omega

theorem rounded_le (size : Nat) : rounded size ≤ size + 4096 := by
  unfold rounded CSize.mul CSize.bound
  split
  · omega
  · split
    · omega
    · split <;> omega

end Efl.Io
