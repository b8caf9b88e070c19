import Efl.Lib.Bytes

/-
  The deltas of `ecore_ipc.c`.

  A field of a message head is sent as a mode and, depending
  on the mode, 0, 1, 2 or 4 bytes that tell how it differs
  from the same field of the message before.

  Main declarations:
    * `EcoreIpc.Dlt`
    * `EcoreIpc.dltInt` and `EcoreIpc.ddltInt`
    * `EcoreIpc.decodes_dltInt`
-/

---
-- Modes
---

namespace Efl.EcoreIpc

open Bytes

/- The `DLT_` constants. -/
inductive Dlt where
  | zero
  | one
  | same
  | shl
  | shr
  | add8
  | del8
  | addu8
  | delu8
  | add16
  | del16
  | addu16
  | delu16
  | set
  | r1
  | r2
  deriving DecidableEq, Repr

namespace Dlt

/- The four bits of a mode in the head of a message. -/
def code : Dlt → BitVec 4
  | zero => 0
  | one => 1
  | same => 2
  | shl => 3
  | shr => 4
  | add8 => 5
  | del8 => 6
  | addu8 => 7
  | delu8 => 8
  | add16 => 9
  | del16 => 10
  | addu16 => 11
  | delu16 => 12
  | set => 13
  | r1 => 14
  | r2 => 15

/- The mode that four bits stand for. -/
def ofCode (c : BitVec 4) : Dlt :=
  match c.toNat with
  | 0 => zero
  | 1 => one
  | 2 => same
  | 3 => shl
  | 4 => shr
  | 5 => add8
  | 6 => del8
  | 7 => addu8
  | 8 => delu8
  | 9 => add16
  | 10 => del16
  | 11 => addu16
  | 12 => delu16
  | 13 => set
  | 14 => r1
  | _ => r2

@[simp] theorem ofCode_code (md : Dlt) : ofCode md.code = md := by
  cases md <;> rfl

/- The number of bytes a value takes, as `CLSZ` adds it. -/
def width (md : Dlt) : Nat :=
  if set.code ≤ md.code then 4
  else if add16.code ≤ md.code then 2
  else if add8.code ≤ md.code then 1
  else 0

theorem width_le (md : Dlt) : md.width ≤ 4 := by
  cases md <;> decide

end Dlt

---
-- Values
---

/- `_ecore_ipc_dlt_int` -/
def dltInt (out prev : Word) : Dlt × Word :=
  if out = 0 then (.zero, 0)
  else if out = 0xffffffff then (.one, 0)
  else if out = prev then (.same, 0)
  else if out = prev <<< 1 then (.shl, 0)
  else if out = prev.sshiftRight 1 then (.shr, 0)
  else if (out - prev) &&& 0xffffff00 = 0 then
    (.add8, (out - prev) &&& 0xff)
  else if (prev - out) &&& 0xffffff00 = 0 then
    (.del8, (prev - out) &&& 0xff)
  else if (out - prev) &&& 0x00ffffff = 0 then
    (.addu8, ((out - prev).sshiftRight 24) &&& 0xff)
  else if (prev - out) &&& 0x00ffffff = 0 then
    (.delu8, ((prev - out).sshiftRight 24) &&& 0xff)
  else if (out - prev) &&& 0xffff0000 = 0 then
    (.add16, (out - prev) &&& 0xffff)
  else if (prev - out) &&& 0xffff0000 = 0 then
    (.del16, (prev - out) &&& 0xffff)
  else if (out - prev) &&& 0x0000ffff = 0 then
    (.addu16, ((out - prev).sshiftRight 16) &&& 0xffff)
  else if (prev - out) &&& 0x0000ffff = 0 then
    (.delu16, ((prev - out).sshiftRight 16) &&& 0xffff)
  else
    (.set, out)

/- `_ecore_ipc_ddlt_int` -/
def ddltInt (inp prev : Word) (md : Dlt) : Word :=
  match md with
  | .zero => 0
  | .one => 0xffffffff
  | .same => prev
  | .shl => prev <<< 1
  | .shr => prev.sshiftRight 1
  | .add8 => prev + inp
  | .del8 => prev - inp
  | .addu8 => prev + inp <<< 24
  | .delu8 => prev - inp <<< 24
  | .add16 => prev + inp
  | .del16 => prev - inp
  | .addu16 => prev + inp <<< 16
  | .delu16 => prev - inp <<< 16
  | .set => inp
  | .r1 => 0
  | .r2 => 0

variable {x : Word}

/- A value with no bit in a mask lies in the other bits. -/
theorem and_of_and_eq_zero {m k : Word}
    (hCover : m ||| k = BitVec.allOnes 32) (hMask : x &&& m = 0) :
    x &&& k = x := by
  calc
    x &&& k = (x &&& m) ||| (x &&& k) := by
      rw [hMask]
      simp
    _ = x &&& (m ||| k) := BitVec.and_or_distrib_left.symm
    _ = x := by
      rw [hCover]
      exact BitVec.and_allOnes

/- What is left of a value sent in one byte. -/
theorem setWidth_setWidth8 (d : Word) : (d.setWidth 8).setWidth 32 = d &&& 0xff := by
  ext i hi
  interval_cases i <;> simp

/- What is left of a value sent in two bytes. -/
theorem setWidth_setWidth16 (d : Word) : (d.setWidth 16).setWidth 32 = d &&& 0xffff := by
  ext i hi
  interval_cases i <;> simp

theorem shift24 (x : Word) : ((x.sshiftRight 24 &&& 0xff) &&& 0xff) <<< 24 = x &&& 0xff000000 := by
  ext i hi
  interval_cases i <;> simp [BitVec.getElem_sshiftRight]

theorem shift16 (x : Word) :
    ((x.sshiftRight 16 &&& 0xffff) &&& 0xffff) <<< 16 = x &&& 0xffff0000 := by
  ext i hi
  interval_cases i <;> simp [BitVec.getElem_sshiftRight]

/-
  The value that the decoder sees: of modes without bytes it
  is what the field before left.
-/
def received (md : Dlt) (d carry : Word) : Word :=
  if Dlt.set.code ≤ md.code then d
  else if Dlt.add16.code ≤ md.code then
    (d.setWidth 16).setWidth 32
  else if Dlt.add8.code ≤ md.code then
    (d.setWidth 8).setWidth 32
  else carry

variable {md : Dlt}

theorem received_of_width1 {d carry : Word} (hWidth : md.width = 1) :
    received md d carry = d &&& 0xff := by
  rw [← setWidth_setWidth8]
  cases md <;> first | rfl | simp [Dlt.width, Dlt.code] at hWidth

theorem received_of_width2 {d carry : Word} (hWidth : md.width = 2) :
    received md d carry = d &&& 0xffff := by
  rw [← setWidth_setWidth16]
  cases md <;> first | rfl | simp [Dlt.width, Dlt.code] at hWidth

/- The pair of a mode and a value that is decoded as `out`. -/
def Decodes (out prev : Word) (p : Dlt × Word) : Prop :=
  ∀ carry,
    ddltInt (received p.1 p.2 carry) prev p.1 = out

variable {out prev : Word}

/- A difference that fits in the low byte. -/
theorem decodes_low8 (hWidth : md.width = 1)
    (hMask : x &&& 0xffffff00 = 0) (hDecode : ddltInt x prev md = out) :
    Decodes out prev (md, x &&& 0xff) := by
  intro carry
  have hLow : x &&& 0xff = x := and_of_and_eq_zero (by decide) hMask
  rw [received_of_width1 hWidth, hLow, hLow]
  exact hDecode

/- A difference that fits in the low two bytes. -/
theorem decodes_low16 (hWidth : md.width = 2)
    (hMask : x &&& 0xffff0000 = 0) (hDecode : ddltInt x prev md = out) :
    Decodes out prev (md, x &&& 0xffff) := by
  intro carry
  have hLow : x &&& 0xffff = x := and_of_and_eq_zero (by decide) hMask
  rw [received_of_width2 hWidth, hLow, hLow]
  exact hDecode

/- A difference that fits in the high byte. -/
theorem decodes_high8 (hWidth : md.width = 1) (hMask : x &&& 0x00ffffff = 0)
    (hDecode : ∀ y : Word, y <<< 24 = x → ddltInt y prev md = out) :
    Decodes out prev (md, x.sshiftRight 24 &&& 0xff) := by
  intro carry
  rw [received_of_width1 hWidth]
  apply hDecode
  rw [shift24]
  exact and_of_and_eq_zero (by decide) hMask

/- A difference that fits in the high two bytes. -/
theorem decodes_high16 (hWidth : md.width = 2) (hMask : x &&& 0x0000ffff = 0)
    (hDecode : ∀ y : Word, y <<< 16 = x → ddltInt y prev md = out) :
    Decodes out prev (md, x.sshiftRight 16 &&& 0xffff) := by
  intro carry
  rw [received_of_width2 hWidth]
  apply hDecode
  rw [shift16]
  exact and_of_and_eq_zero (by decide) hMask

theorem add_sub_self (out prev : Word) : prev + (out - prev) = out := by
  bv_omega

theorem sub_sub_self (out prev : Word) : prev - (prev - out) = out := by
  bv_omega

/- The decoder undoes the encoder. -/
theorem decodes_dltInt (out prev : Word) : Decodes out prev (dltInt out prev) := by
  unfold dltInt
  -- The modes without bytes.
  refine iteInduction (fun h _ => h.symm) fun _ => ?_
  refine iteInduction (fun h _ => h.symm) fun _ => ?_
  refine iteInduction (fun h _ => h.symm) fun _ => ?_
  refine iteInduction (fun h _ => h.symm) fun _ => ?_
  refine iteInduction (fun h _ => h.symm) fun _ => ?_
  -- One byte.
  refine iteInduction (fun h => decodes_low8 rfl h (add_sub_self out prev)) fun _ => ?_
  refine iteInduction (fun h => decodes_low8 rfl h (sub_sub_self out prev)) fun _ => ?_
  refine iteInduction (fun h => decodes_high8 rfl h fun y hy => ?_) fun _ => ?_
  · rw [ddltInt, hy, add_sub_self]
  refine iteInduction (fun h => decodes_high8 rfl h fun y hy => ?_) fun _ => ?_
  · rw [ddltInt, hy, sub_sub_self]
  -- Two bytes.
  refine iteInduction (fun h => decodes_low16 rfl h (add_sub_self out prev)) fun _ => ?_
  refine iteInduction (fun h => decodes_low16 rfl h (sub_sub_self out prev)) fun _ => ?_
  refine iteInduction (fun h => decodes_high16 rfl h fun y hy => ?_) fun _ => ?_
  · rw [ddltInt, hy, add_sub_self]
  refine iteInduction (fun h => decodes_high16 rfl h fun y hy => ?_) fun _ => ?_
  · rw [ddltInt, hy, sub_sub_self]
  -- The value itself.
  exact fun _ => rfl

end Efl.EcoreIpc
