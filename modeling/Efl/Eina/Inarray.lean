import Efl.Lib.Runs
import Mathlib.Algebra.Order.Group.Nat

/-
  The capacity of inline arrays, in 32-bit arithmetic.

  An access beyond the block of the members is `none`; the
  elements that are handed out count as accessed.

  Main declarations:
    * `Inarray`, `resizeMembers`
    * `Op`, `step`
    * `resizeMembers_spec`
    * `capacity_run`
-/

---
-- The Array
---

namespace Efl.Inarrays

/- `unsigned int` -/
def uint (x : Nat) : Nat :=
  x % 4294967296

/- `bytes` is the size of the block that `members` points to. -/
structure Inarray where
  memberSize : Nat
  len : Nat
  max : Nat
  step : Nat
  bytes : Nat
  deriving DecidableEq

/- `_eina_inarray_setup` -/
def setup (memberSize step : Nat) : Inarray :=
  ⟨memberSize, 0, 0, if 0 < step then step else 32, 0⟩

/-
  `_eina_inarray_resize`; `got` says whether `realloc` returns
  a block.  A `realloc` to no bytes may free and return none.
-/
def resizeMembers (a : Inarray) (newSize : Nat) (got : Bool) : Inarray × Bool :=
  if newSize < a.max then (a, true)
  else
    let newMax :=
      if newSize % a.step = 0 then newSize
      else uint ((newSize / a.step + 1) * a.step)
    let size := uint (newMax * a.memberSize)
    if got = false ∧ 0 < newMax then
      ({ a with bytes := if size = 0 then 0 else a.bytes }, false)
    else
      ({ a with bytes := if got then size else 0, max := newMax },
        true)

/- The offset of `_eina_inarray_get` -/
def get (a : Inarray) (position : Nat) : Nat :=
  uint (position * a.memberSize)

def access (a : Inarray) (offset n : Nat) : Option Unit :=
  if offset + n ≤ a.bytes then some () else none

/- New elements at the end: what `eina_inarray_push` and
`eina_inarray_grow` do -/
def append (a : Inarray) (size : Nat) (got : Bool) : Option Inarray := do
  let (a, r) := resizeMembers a (uint (a.len + size)) got
  if r then do
    access a (get a a.len) (size * a.memberSize)
    some { a with len := uint (a.len + size) }
  else
    some a

/- New elements in the middle: what `eina_inarray_insert_at` and
`eina_inarray_alloc_at` do -/
def insert (a : Inarray) (position count : Nat) (got : Bool) : Option Inarray := do
  let (a, r) := resizeMembers a (uint (a.len + count)) got
  if r then do
    let p := get a position
    let n := uint ((a.len - position) * a.memberSize)
    if position < a.len then do
      access a p n
      access a (p + uint (count * a.memberSize)) n
    access a p (count * a.memberSize)
    some { a with len := uint (a.len + count) }
  else
    some a

inductive Op where
  | push (got : Bool)
  | insertAt (position : Nat) (got : Bool)
  | allocAt (position count : Nat) (got : Bool)
  | grow (size : Nat) (got : Bool)
  | resize (newSize : Nat) (got : Bool)
  | pop (got : Bool)
  | removeAt (position : Nat) (got : Bool)

def step (a : Inarray) : Op → Option Inarray
  | .push got => append a 1 got
  | .insertAt position got =>
    if a.len < position then some a else insert a position 1 got
  | .allocAt position count got =>
    if a.len < position ∨ count = 0 then some a
    else insert a position count got
  | .grow size got => if size = 0 then some a else append a size got
  | .resize newSize got =>
    let (a, r) := resizeMembers a newSize got
    some (if r then { a with len := newSize } else a)
  | .pop got =>
    if a.len = 0 then some a
    else do
      let (a, r) := resizeMembers a (a.len - 1) got
      if r then do
        access a (get a (a.len - 1)) a.memberSize
        some { a with len := a.len - 1 }
      else
        some a
  | .removeAt position got =>
    if a.len ≤ position then some a
    else do
      if uint (position + 1) < a.len then do
        let p := get a position
        let n := uint ((a.len - position - 1) * a.memberSize)
        access a (p + a.memberSize) n
        access a p n
      let (a, r) := resizeMembers a (a.len - 1) got
      some (if r then { a with len := a.len - 1 } else a)

/- `eina_inarray_resize` to 2^29 + 1 members of eight bytes gets
a block of 256 bytes. -/
theorem resize_short :
    step (setup 8 32) (.resize 536870913 true) =
        some ⟨8, 536870913, 536870944, 32, 256⟩ ∧
      ¬ 536870913 * 8 ≤ 256 := by
  decide

---
-- Capacities
---

/- The capacity, as if no number was too large -/
def roundUp (n step : Nat) : Nat :=
  if n % step = 0 then n else (n / step + 1) * step

/- A new length, and the bytes for it, fit in 32 bits. -/
def Fits (a : Inarray) (n : Nat) : Prop :=
  n < 4294967296 ∧ (a.max ≤ n →
    roundUp n a.step < 4294967296 ∧
      roundUp n a.step * a.memberSize < 4294967296)

/- The operations that make the array larger do it to a length
that fits. -/
def NoWrap (a : Inarray) : Op → Prop
  | .push _ => Fits a (a.len + 1)
  | .insertAt position _ => position ≤ a.len → Fits a (a.len + 1)
  | .allocAt position count _ =>
    position ≤ a.len → Fits a (a.len + count)
  | .grow size _ => Fits a (a.len + size)
  | .resize newSize _ => Fits a newSize
  | .pop _ => True
  | .removeAt _ _ => True

structure Good (a : Inarray) : Prop where
  step_pos : 0 < a.step
  len_le : a.len ≤ a.max
  max_lt : a.max < 4294967296
  size_lt : a.max * a.memberSize < 4294967296
  size_le : a.max * a.memberSize ≤ a.bytes

theorem le_roundUp (n : Nat) {step : Nat} (hPos : 0 < step) : n ≤ roundUp n step := by
  unfold roundUp
  split
  case isTrue => exact Nat.le_refl n
  case isFalse =>
    rw [Nat.add_mul, Nat.one_mul, Nat.mul_comm]
    have hSplit := Nat.div_add_mod n step
    have hLess := Nat.mod_lt n hPos
    omega

theorem uint_of_lt {x : Nat} (hLess : x < 4294967296) : uint x = x := Nat.mod_eq_of_lt hLess

variable {a : Inarray}

theorem resizeMembers_spec {n : Nat} (got : Bool) (hGood : Good a)
    (hFits : Fits a n) :
    ∃ a' r, resizeMembers a n got = (a', r) ∧ Good a' ∧
      a'.len = a.len ∧ a'.memberSize = a.memberSize ∧ (r = true → n ≤ a'.max) := by
  unfold resizeMembers
  by_cases hSmall : n < a.max
  · rw [if_pos hSmall]
    exact ⟨a, true, rfl, hGood, rfl, rfl, fun _ => Nat.le_of_lt hSmall⟩
  · rcases hFits.2 (Nat.le_of_not_lt hSmall) with ⟨hMax, hSize⟩
    have hLe := le_roundUp n hGood.step_pos
    have hNew : (if n % a.step = 0 then n
        else uint ((n / a.step + 1) * a.step)) = roundUp n a.step := by
      unfold roundUp at hMax ⊢
      split
      case isTrue => rfl
      case isFalse hMod =>
        rw [if_neg hMod] at hMax
        exact uint_of_lt hMax
    rw [if_neg hSmall, hNew]
    dsimp only
    rw [uint_of_lt hSize]
    generalize hCap : roundUp n a.step = cap at hMax hSize hLe
    have hOld : a.max * a.memberSize ≤ cap * a.memberSize := Nat.mul_le_mul_right _ (by omega)
    have hSizeLe := hGood.size_le
    have hLen := hGood.len_le
    by_cases hFail : got = false ∧ 0 < cap
    · refine ⟨_, false, if_pos hFail, ⟨hGood.step_pos, hLen, hGood.max_lt, hGood.size_lt, ?_⟩,
        rfl, rfl, nofun⟩
      dsimp only
      split <;> omega
    · refine ⟨_, true, if_neg hFail, ⟨hGood.step_pos, by dsimp only; omega, hMax, hSize, ?_⟩,
        rfl, rfl, fun _ => hLe⟩
      dsimp only
      cases got with
      | true => exact Nat.le_refl _
      | false =>
        obtain rfl : cap = 0 := by
          rw [not_and] at hFail
          have hNot := hFail rfl
          omega
        simp

---
-- Operations
---

/- Elements below the capacity -/
theorem Good.access_of_le (hGood : Good a) (position count : Nat)
    (hLe : position + count ≤ a.max) :
    get a position = position * a.memberSize ∧
      uint (count * a.memberSize) = count * a.memberSize ∧
      access a (position * a.memberSize) (count * a.memberSize) = some () := by
  have hMul := Nat.mul_le_mul_right a.memberSize hLe
  rw [Nat.add_mul] at hMul
  have hSize := hGood.size_lt
  have hBytes := hGood.size_le
  exact ⟨uint_of_lt (by omega), uint_of_lt (by omega), if_pos (by omega)⟩

theorem Good.set_len (hGood : Good a) {n : Nat} (hLe : n ≤ a.max) : Good { a with len := n } :=
  ⟨hGood.step_pos, hLe, hGood.max_lt, hGood.size_lt, hGood.size_le⟩

theorem append_spec {size : Nat} (got : Bool) (hGood : Good a)
    (hFits : Fits a (a.len + size)) : ∃ a', append a size got = some a' ∧ Good a' := by
  unfold append
  rw [uint_of_lt hFits.1]
  rcases resizeMembers_spec got hGood hFits with ⟨a', r, hNext, hNew, hLen, hMember, hRoom⟩
  rw [hNext]
  dsimp only
  cases r with
  | false => exact ⟨a', rfl, hNew⟩
  | true =>
    have hLe := hRoom rfl
    rw [← hLen] at hLe hFits
    rcases hNew.access_of_le _ _ hLe with ⟨hGet, -, hAccess⟩
    rw [if_pos rfl, hGet, hAccess, uint_of_lt hFits.1]
    exact ⟨_, rfl, hNew.set_len hLe⟩

theorem insert_spec {position count : Nat} (got : Bool)
    (hGood : Good a) (hPosition : position ≤ a.len)
    (hFits : Fits a (a.len + count)) : ∃ a', insert a position count got = some a' ∧ Good a' := by
  unfold insert
  rw [uint_of_lt hFits.1]
  rcases resizeMembers_spec got hGood hFits with ⟨a', r, hNext, hNew, hLen, hMember, hRoom⟩
  rw [hNext]
  dsimp only
  cases r with
  | false => exact ⟨a', rfl, hNew⟩
  | true =>
    have hLe := hRoom rfl
    rw [← hLen] at hLe hFits hPosition
    rcases hNew.access_of_le position count (by omega) with ⟨hGet, hCount, hFirst⟩
    rcases hNew.access_of_le position (a'.len - position) (by omega) with ⟨-, hRest, hFrom⟩
    rcases hNew.access_of_le (position + count) (a'.len - position) (by omega) with ⟨-, -, hTo⟩
    rw [Nat.add_mul] at hTo
    rw [if_pos rfl, hGet, hCount, hRest, hFirst, hFrom, hTo, uint_of_lt hFits.1]
    refine ⟨_, ?_, hNew.set_len hLe⟩
    split <;> rfl

theorem step_spec {op : Op} (hGood : Good a) (hNoWrap : NoWrap a op) :
    ∃ a', step a op = some a' ∧ Good a' := by
  cases op with
  | push got => exact append_spec got hGood hNoWrap
  | insertAt position got =>
    unfold step
    by_cases hLess : a.len < position
    · exact ⟨a, if_pos hLess, hGood⟩
    · dsimp only
      rw [if_neg hLess]
      exact insert_spec got hGood (by omega) (hNoWrap (by omega))
  | allocAt position count got =>
    unfold step
    by_cases hFail : a.len < position ∨ count = 0
    · exact ⟨a, if_pos hFail, hGood⟩
    · dsimp only
      rw [if_neg hFail]
      exact insert_spec got hGood (by omega) (hNoWrap (by omega))
  | grow size got =>
    unfold step
    by_cases hNone : size = 0
    · exact ⟨a, if_pos hNone, hGood⟩
    · dsimp only
      rw [if_neg hNone]
      exact append_spec got hGood hNoWrap
  | resize newSize got =>
    unfold step
    rcases resizeMembers_spec got hGood hNoWrap with ⟨a', r, hNext, hNew, hLen, hMember, hRoom⟩
    dsimp only
    rw [hNext]
    cases r with
    | false => exact ⟨a', rfl, hNew⟩
    | true => exact ⟨_, rfl, hNew.set_len (hRoom rfl)⟩
  | pop got =>
    unfold step
    by_cases hEmpty : a.len = 0
    · exact ⟨a, if_pos hEmpty, hGood⟩
    · have hLen := hGood.len_le
      have hNext : resizeMembers a (a.len - 1) got = (a, true) := if_pos (by omega)
      rcases hGood.access_of_le (a.len - 1) 1 (by omega) with ⟨hGet, -, hAccess⟩
      rw [Nat.one_mul] at hAccess
      dsimp only
      rw [if_neg hEmpty, hNext]
      dsimp only
      rw [if_pos rfl, hGet, hAccess]
      exact ⟨_, rfl, hGood.set_len (by omega)⟩
  | removeAt position got =>
    unfold step
    by_cases hLe : a.len ≤ position
    · exact ⟨a, if_pos hLe, hGood⟩
    · have hLen := hGood.len_le
      have hMax := hGood.max_lt
      have hNext : resizeMembers a (a.len - 1) got = (a, true) := if_pos (by omega)
      dsimp only
      rw [if_neg hLe, hNext, uint_of_lt (by omega)]
      refine ⟨_, ?_, hGood.set_len (n := a.len - 1) (by omega)⟩
      by_cases hMore : position + 1 < a.len
      · rcases hGood.access_of_le position (a.len - position - 1)
          (by omega) with ⟨hGet, hCount, hTo⟩
        rcases hGood.access_of_le (position + 1) (a.len - position - 1)
          (by omega) with ⟨-, -, hFrom⟩
        rw [Nat.add_mul, Nat.one_mul] at hFrom
        rw [if_pos hMore, hGet, hCount, hFrom, hTo]
        rfl
      · rw [if_neg hMore]
        rfl

/-
  As long as no operation needs more than 32 bits, the block
  has room for all members, and no access is beyond it.
-/
theorem capacity_run {memberSize size : Nat} {ops : List Op}
    (hGuarded : Runs.Guarded step NoWrap (setup memberSize size) ops) :
    ∃ a, Runs.run step (setup memberSize size) ops = some a ∧
      a.len * a.memberSize ≤ a.bytes := by
  have hInit : Good (setup memberSize size) := by
    refine ⟨?_, Nat.le_refl 0,
      show 0 < 4294967296 by decide, ?_, ?_⟩
    · unfold setup
      dsimp only
      split <;> omega
    · simp [setup]
    · simp [setup]
  rcases Runs.run_of_guarded Good (fun _ _ hGood hNoWrap =>
    step_spec hGood hNoWrap) hInit hGuarded with ⟨a, hRun, hGood⟩
  exact ⟨a, hRun, Nat.le_trans
    (Nat.mul_le_mul_right _ hGood.len_le) hGood.size_le⟩

/- One member of eight bytes, and then two in front of it -/
theorem capacity_run_sample :
    Runs.Guarded step NoWrap (setup 8 32)
        [.push true, .allocAt 0 2 true] ∧
      ∃ a, Runs.run step (setup 8 32)
          [.push true, .allocAt 0 2 true] = some a ∧
        a.len * a.memberSize ≤ a.bytes := by
  have hGuarded : Runs.Guarded step NoWrap (setup 8 32)
      [.push true, .allocAt 0 2 true] := by
    refine ⟨⟨by decide, fun _ => by decide⟩, ?_⟩
    intro a hNext
    obtain rfl : (⟨8, 1, 32, 32, 256⟩ : Inarray) = a :=
      Option.some.inj hNext
    exact ⟨fun _ => ⟨by decide, by decide⟩, fun _ _ => trivial⟩
  exact ⟨hGuarded, capacity_run hGuarded⟩

end Efl.Inarrays
