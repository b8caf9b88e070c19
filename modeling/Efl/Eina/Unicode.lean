import Efl.Lib.Bytes
import Mathlib.Data.List.Basic
import Mathlib.Data.Nat.Bitwise

/-
  UTF-8 and code points.

  Bytes that are no UTF-8 are the code points from 0xDC80 on.
  The end of a list stands for the NUL.

  Main declarations:
    * `utf8NextGet`, `utf8ToUnicode`
    * `encodeChar`, `unicodeToUtf8`
    * `utf8NextGet_spec`
    * `roundTrip_iff`
-/

---
-- Code Points of Bytes
---

namespace Efl.Unicode

open Bytes List Option

/- `EINA_IS_INVALID_BYTE` -/
def isInvalidByte (x : Nat) : Bool :=
  x = 192 ∨ x = 193 ∨ 245 ≤ x

/- `EINA_IS_CONTINUATION_BYTE` -/
def isContinuationByte (x : Nat) : Bool :=
  x &&& 0xC0 = 0x80

/- The `n` bytes after the first of a sequence -/
def following : Nat → Nat → List Byte → Option Nat
  | 0, r, _ => some r
  | _ + 1, _, [] => none
  | n + 1, r, d :: buf =>
    if d.toNat = 0 ∨ isInvalidByte d.toNat ∨
        ¬ isContinuationByte d.toNat then
      none
    else
      following n (r ||| (d.toNat &&& 0x3f) <<< (6 * n)) buf

/- A sequence that is not longer than it must be -/
def sequence (buf : List Byte) (n r limit : Nat) : Option (Nat × Nat) := do
  let r ← following n r buf
  if r ≤ limit then none else some (r, n + 1)

/- The sequences of two to six bytes -/
def sequenceGet (d : Nat) (buf : List Byte) : Option (Nat × Nat) :=
  if d &&& 0xe0 = 0xc0 then
    sequence buf 1 ((d &&& 0x1f) <<< 6) 0x7F
  else if d &&& 0xf0 = 0xe0 then
    sequence buf 2 ((d &&& 0x0f) <<< 12) 0x7FF
  else if d &&& 0xf8 = 0xf0 then
    sequence buf 3 ((d &&& 0x07) <<< 18) 0xFFFF
  else if d &&& 0xfc = 0xf8 then
    sequence buf 4 ((d &&& 0x03) <<< 24) 0x1FFFFF
  else if d &&& 0xfe = 0xfc then
    sequence buf 5 ((d &&& 0x01) <<< 30) 0x3FFFFFF
  else
    none

/-
  `eina_unicode_utf8_next_get`: the code point, and by how much
  the index grows.
-/
def utf8NextGet : List Byte → Nat × Nat
  | [] => (0, 0)
  | d :: buf =>
    if d.toNat = 0 then (0, 0)
    else if d.toNat &&& 0x80 = 0 then (d.toNat, 1)
    else (sequenceGet d.toNat buf).getD (0xDC80 ||| d.toNat, 1)

variable {buf : List Byte} {r n : Nat}

theorem sequenceGet_pos {d : Nat} (hGet : sequenceGet d buf = some (r, n)) : 0 < n := by
  have hPos : ∀ {k a limit : Nat}, sequence buf k a limit = some (r, n) → 0 < n := by
    intro k a limit hSeq
    unfold sequence at hSeq
    rcases bind_eq_some_iff.mp hSeq with ⟨r', -, hSome⟩
    split at hSome
    case isTrue => exact nomatch hSome
    case isFalse =>
      obtain ⟨-, rfl⟩ := Prod.mk.inj (some.inj hSome)
      exact Nat.succ_pos k
  unfold sequenceGet at hGet
  split_ifs at hGet <;> exact hPos hGet

theorem utf8NextGet_advance (hMore : (utf8NextGet buf).1 ≠ 0) :
    (buf.drop (utf8NextGet buf).2).length < buf.length := by
  cases buf with
  | nil => exact absurd rfl hMore
  | cons d buf =>
    have hPos : 0 < (utf8NextGet (d :: buf)).2 := by
      rw [utf8NextGet] at hMore ⊢
      split_ifs at hMore ⊢
      · exact absurd rfl hMore
      · exact Nat.one_pos
      · cases hGet : sequenceGet d.toNat buf with
        | none => exact Nat.one_pos
        | some p => exact sequenceGet_pos hGet
    rw [length_drop, length_cons]
    omega

/- `eina_unicode_utf8_get_len` -/
def utf8GetLen (buf : List Byte) : Nat :=
  if (utf8NextGet buf).1 = 0 then 0
  else utf8GetLen (buf.drop (utf8NextGet buf).2) + 1
termination_by buf.length
decreasing_by exact utf8NextGet_advance ‹_›

/- The loop that fills the new block -/
def fill : Nat → List Byte → List Nat
  | 0, _ => []
  | n + 1, buf =>
    (utf8NextGet buf).1 :: fill n (buf.drop (utf8NextGet buf).2)

def utf8ToUnicode (utf : List Byte) : List Nat :=
  fill (utf8GetLen utf) utf

---
-- Bytes of Code Points
---

/- The bytes after the first -/
def trail : Nat → Nat → List Byte
  | 0, _ => []
  | n + 1, u =>
    BitVec.ofNat 8 (0x80 ||| (u >>> (6 * n) &&& 0x3F)) :: trail n u

/- What the loop writes for one code point -/
def encodeChar (u : Nat) : List Byte :=
  if u ≤ 0x7F then
    [BitVec.ofNat 8 u]
  else if u ≤ 0x7FF then
    BitVec.ofNat 8 (0xC0 ||| u >>> 6) :: trail 1 u
  else if u ≤ 0xFFFF then
    if 0xDC80 ≤ u ∧ u ≤ 0xDCFF then
      [BitVec.ofNat 8 (u &&& 0xFF)]
    else
      BitVec.ofNat 8 (0xE0 ||| u >>> 12) :: trail 2 u
  else if u ≤ 0x1FFFFF then
    BitVec.ofNat 8 (0xF0 ||| (u >>> 18 &&& 0x07)) :: trail 3 u
  else if u ≤ 0x3FFFFFF then
    BitVec.ofNat 8 (0xF8 ||| (u >>> 24 &&& 0x03)) :: trail 4 u
  else
    BitVec.ofNat 8 (0xFC ||| (u >>> 30 &&& 0x01)) :: trail 5 u

/- The loop of `eina_unicode_unicode_to_utf8_range` -/
def encode : List Nat → Nat → List Byte
  | [], _ => []
  | u :: uni, ulen =>
    if u ≠ 0 ∧ 0 < ulen then encodeChar u ++ encode uni (ulen - 1)
    else []

/- `eina_unicode_strlen` -/
def unicodeStrlen (uni : List Nat) : Nat :=
  (uni.takeWhile (· ≠ 0)).length

/-
  The size of the block is an `int`.  An overflow of it is not
  defined; with it no other `int` of these functions overflows.
-/
def unicodeToUtf8 (uni : List Nat) : Option (List Byte) :=
  if (unicodeStrlen uni + 1) * 6 ≤ 2147483647 then
    some (encode uni (unicodeStrlen uni))
  else
    none

---
-- One Sequence
---

/- The number with six more bits for each element -/
def sixes (a : Nat) (xs : List Nat) : Nat :=
  xs.foldl (fun r x => r * 64 + x) a

theorem continuation_spec :
    ∀ d < 256, isContinuationByte d → d &&& 0x3f < 64 ∧ 128 + (d &&& 0x3f) = d := by
  set_option maxRecDepth 8000 in decide

theorem or_sixes (a n : Nat) {x : Nat} (hSix : x < 64) :
    a <<< (6 * (n + 1)) ||| x <<< (6 * n) = (a * 64 + x) <<< (6 * n) := by
  have hOr : a <<< 6 ||| x = a * 64 + x := by
    rw [← Nat.shiftLeft_add_eq_or_of_lt (i := 6) hSix, Nat.shiftLeft_eq]
  rw [← hOr, Nat.shiftLeft_or_distrib, ← Nat.shiftLeft_add, Nat.mul_succ, Nat.add_comm 6]

theorem following_spec {a : Nat}
    (hGet : following n (a <<< (6 * n)) buf = some r) :
    ∃ xs : List Nat, xs.length = n ∧ (∀ x ∈ xs, x < 64) ∧
      buf.take n = xs.map (fun x => BitVec.ofNat 8 (128 + x)) ∧
      n ≤ buf.length ∧ r = sixes a xs := by
  induction n generalizing a buf with
  | zero =>
    obtain rfl := some.inj hGet
    exact ⟨[], rfl, fun _ hMem => absurd hMem not_mem_nil, by simp, Nat.zero_le _, by simp [sixes]⟩
  | succ n ih =>
    cases buf with
    | nil => exact nomatch hGet
    | cons d buf =>
      rw [following] at hGet
      split at hGet
      case isTrue => exact nomatch hGet
      case isFalse hByte =>
        rw [not_or, not_or, not_not] at hByte
        rcases continuation_spec d.toNat d.isLt hByte.2.2 with ⟨hSix, hSame⟩
        rw [or_sixes a n hSix] at hGet
        rcases ih hGet with ⟨xs, hLength, hAll, hTake, hLe, hr⟩
        refine ⟨(d.toNat &&& 0x3f) :: xs, ?_, ?_, ?_, ?_, hr⟩
        · rw [length_cons, hLength]
        · rw [forall_mem_cons]
          exact ⟨hSix, hAll⟩
        · rw [take_succ_cons, hTake, map_cons, hSame, BitVec.ofNat_toNat, BitVec.setWidth_eq]
        · exact Nat.succ_le_succ hLe

theorem sixes_shift (a : Nat) {xs : List Nat}
    (hAll : ∀ x ∈ xs, x < 64) :
    sixes a xs >>> (6 * xs.length) = a ∧ trail xs.length
      (sixes a xs) = xs.map fun x => BitVec.ofNat 8 (128 + x) := by
  induction xs generalizing a with
  | nil => exact ⟨rfl, rfl⟩
  | cons x xs ih =>
    rw [forall_mem_cons] at hAll
    rcases ih (a * 64 + x) hAll.2 with ⟨hShift, hTrail⟩
    change sixes (a * 64 + x) xs >>> _ = _ ∧ trail (xs.length + 1) (sixes (a * 64 + x) xs) = _
    have hSix : (a * 64 + x) &&& 0x3F = x := by
      rw [show 0x3F = 2 ^ 6 - 1 from rfl, Nat.and_two_pow_sub_one_eq_mod]
      omega
    have hOr : 0x80 ||| x = 128 + x := by
      rw [show 0x80 = 2 ^ 6 * 2 from rfl, ← Nat.two_pow_add_eq_or_of_lt hAll.1]
    constructor
    · rw [length_cons,
        show 6 * (xs.length + 1) = 6 * xs.length + 6 from rfl,
        Nat.shiftRight_add, hShift, Nat.shiftRight_eq_div_pow]
      omega
    · rw [trail, hShift, hSix, hOr, hTrail, map_cons]

theorem sequence_spec {k a limit : Nat}
    (hGet : sequence buf k (a <<< (6 * k)) limit = some (r, n)) :
    n = k + 1 ∧ limit < r ∧ k ≤ buf.length ∧
      ∃ xs : List Nat, xs.length = k ∧ (∀ x ∈ xs, x < 64) ∧
        buf.take k = trail k r ∧
        trail k r = xs.map (fun x => BitVec.ofNat 8 (128 + x)) ∧
        r >>> (6 * k) = a ∧ r = sixes a xs := by
  rcases bind_eq_some_iff.mp hGet with ⟨r', hRead, hSome⟩
  split at hSome
  case isTrue => exact nomatch hSome
  case isFalse hLimit =>
    obtain ⟨rfl, rfl⟩ := Prod.mk.inj (some.inj hSome)
    rcases following_spec hRead with ⟨xs, hLength, hAll, hTake, hLe, hr⟩
    rcases sixes_shift a hAll with ⟨hShift, hTrail⟩
    rw [← hr, hLength] at hShift hTrail
    exact ⟨rfl, Nat.lt_of_not_le hLimit, hLe, xs, hLength, hAll,
      hTake.trans hTrail.symm, hTrail, hShift, hr⟩

/- The first bytes of the sequences -/
theorem lead_spec :
    ∀ d < 256,
      (d &&& 0xe0 = 0xc0 → 0xC0 ||| (d &&& 0x1f) = d ∧
        d &&& 0x1f < 32) ∧
      (d &&& 0xf0 = 0xe0 → 0xE0 ||| (d &&& 0x0f) = d ∧
        d &&& 0x0f < 16) ∧
      (d &&& 0xf8 = 0xf0 → 0xF0 ||| (d &&& 0x07 &&& 0x07) = d ∧
        d &&& 0x07 < 8) ∧
      (d &&& 0xfc = 0xf8 → 0xF8 ||| (d &&& 0x03 &&& 0x03) = d ∧
        d &&& 0x03 < 4) ∧
      (d &&& 0xfe = 0xfc → 0xFC ||| (d &&& 0x01 &&& 0x01) = d ∧ d &&& 0x01 < 2) := by
  set_option maxRecDepth 8000 in decide

theorem escape_spec :
    ∀ d < 256, d &&& 0x80 ≠ 0 →
      0xDC80 ≤ 0xDC80 ||| d ∧ 0xDC80 ||| d ≤ 0xDCFF ∧ (0xDC80 ||| d) &&& 0xFF = d := by
  set_option maxRecDepth 8000 in decide

/- A sequence that is a code point of an escaped byte -/
def Escaped (s : List Byte) : Prop :=
  ∃ b c rest, s = 0xED :: b :: c :: rest ∧
    (b = 0xB2 ∨ b = 0xB3) ∧ isContinuationByte c.toNat

theorem sequenceGet_escaped {b c : Byte} (rest : List Byte) (hSecond : b = 0xB2 ∨ b = 0xB3)
    (hThird : isContinuationByte c.toNat) :
    ∃ r, sequenceGet 0xED (b :: c :: rest) = some (r, 3) ∧ 0xDC80 ≤ r ∧ r ≤ 0xDCFF := by
  have hBytes : ∀ c < 256, isContinuationByte c →
      c ≠ 0 ∧ isInvalidByte c = false ∧
      (0xDC80 ≤ 0xDC80 ||| c &&& 0x3f ∧
        0xDC80 ||| c &&& 0x3f ≤ 0xDCFF) ∧
      0xDC80 ≤ 0xDCC0 ||| c &&& 0x3f ∧ 0xDCC0 ||| c &&& 0x3f ≤ 0xDCFF := by
    set_option maxRecDepth 8000 in decide
  rcases hBytes c.toNat c.isLt hThird with ⟨hNe, hValid, hRange, hRange'⟩
  have hByte : ¬ (c.toNat = 0 ∨ isInvalidByte c.toNat ∨ ¬ isContinuationByte c.toNat) := by
    simp [hNe, hValid, hThird]
  rcases hSecond with rfl | rfl
  · refine ⟨0xDC80 ||| c.toNat &&& 0x3f, ?_, hRange⟩
    change sequence _ 2 53248 0x7FF = _
    have hRead : following 2 53248 (0xB2 :: c :: rest) = some (0xDC80 ||| c.toNat &&& 0x3f) := by
      change following 1 0xDC80 (c :: rest) = _
      rw [following, if_neg hByte]
      rfl
    rw [sequence, hRead, bind_eq_bind, bind_some, if_neg (by omega)]
  · refine ⟨0xDCC0 ||| c.toNat &&& 0x3f, ?_, hRange'⟩
    change sequence _ 2 53248 0x7FF = _
    have hRead : following 2 53248 (0xB3 :: c :: rest) = some (0xDCC0 ||| c.toNat &&& 0x3f) := by
      change following 1 0xDCC0 (c :: rest) = _
      rw [following, if_neg hByte]
      rfl
    rw [sequence, hRead, bind_eq_bind, bind_some, if_neg (by omega)]

theorem continuation_bytes {xs : List Nat} {k : Nat} (hAll : ∀ x ∈ xs, x < 64)
    (hTake : buf.take k = xs.map (fun x => BitVec.ofNat 8 (128 + x))) :
    ∀ c ∈ buf.take k, isContinuationByte c.toNat := by
  have hByte : ∀ x < 64, isContinuationByte (BitVec.ofNat 8 (128 + x)).toNat := by
    decide
  intro c hMem
  rw [hTake, List.mem_map] at hMem
  rcases hMem with ⟨x, hx, rfl⟩
  exact hByte x (hAll x hx)

/- Three bytes in the range of the escaped bytes -/
theorem escaped_of_range {d : Byte} {xs : List Nat} (hLead : 0xE0 ||| (d.toNat &&& 0x0f) = d.toNat)
    (hLength : xs.length = 2) (hAll : ∀ x ∈ xs, x < 64)
    (hTake : buf.take 2 = xs.map (fun x => BitVec.ofNat 8 (128 + x)))
    (hr : r = sixes (d.toNat &&& 0x0f) xs)
    (hRange : 0xDC80 ≤ r ∧ r ≤ 0xDCFF) : Escaped (d :: buf) := by
  rcases length_eq_two.mp hLength with ⟨x, y, rfl⟩
  rw [forall_mem_cons, forall_mem_singleton] at hAll
  change r = ((d.toNat &&& 0x0f) * 64 + x) * 64 + y at hr
  have hFirst : d.toNat &&& 0x0f = 13 := by omega
  have hSecond : x = 50 ∨ x = 51 := by omega
  have hThird : ∀ y < 64, isContinuationByte (BitVec.ofNat 8 (128 + y)).toNat := by
    decide
  rw [hFirst] at hLead
  obtain rfl : d = 0xED := BitVec.eq_of_toNat_eq hLead.symm
  refine ⟨BitVec.ofNat 8 (128 + x), BitVec.ofNat 8 (128 + y), buf.drop 2, ?_, ?_, hThird y hAll.2⟩
  · conv_lhs => rw [← take_append_drop 2 buf, hTake]
    rfl
  · rcases hSecond with rfl | rfl
    · exact Or.inl rfl
    · exact Or.inr rfl

/- What is read is written again, or it is the escape. -/
theorem sequenceGet_spec {d : Byte}
    (hGet : sequenceGet d.toNat buf = some (r, n)) :
    0 < r ∧ n ≤ buf.length + 1 ∧
      (∀ c ∈ buf.take (n - 1), isContinuationByte c.toNat) ∧
      (Escaped (d :: buf) ∨ encodeChar r = (d :: buf).take n) := by
  rcases lead_spec d.toNat d.isLt with ⟨h₂, h₃, h₄, h₅, h₆⟩
  have hHead : ∀ {m : Nat}, m = d.toNat → BitVec.ofNat 8 m = d := by
    rintro m rfl
    rw [BitVec.ofNat_toNat, BitVec.setWidth_eq]
  unfold sequenceGet at hGet
  split_ifs at hGet with hTwo hThree hFour hFive hSix
  · rcases sequence_spec (k := 1) hGet with ⟨rfl, hLow, hLe, xs, -, hAll, hTake, hTrail, hShift, -⟩
    rcases h₂ hTwo with ⟨hTag, hLead⟩
    refine ⟨by omega, by omega, continuation_bytes hAll (hTake.trans hTrail), Or.inr ?_⟩
    have hHigh : r ≤ 0x7FF := by
      rw [Nat.shiftRight_eq_div_pow] at hShift
      omega
    unfold encodeChar
    rw [if_neg (by omega), if_pos hHigh, hShift, hHead hTag, ← hTake]
    rfl
  · rcases sequence_spec (k := 2) hGet with
      ⟨rfl, hLow, hLe, xs, hLength, hAll, hTake, hTrail, hShift, hr⟩
    rcases h₃ hThree with ⟨hTag, hLead⟩
    refine ⟨by omega, by omega, continuation_bytes hAll (hTake.trans hTrail), ?_⟩
    have hHigh : r ≤ 0xFFFF := by
      rw [Nat.shiftRight_eq_div_pow] at hShift
      omega
    by_cases hRange : 0xDC80 ≤ r ∧ r ≤ 0xDCFF
    · exact Or.inl (escaped_of_range hTag hLength hAll (hTake.trans hTrail) hr hRange)
    · right
      unfold encodeChar
      rw [if_neg (by omega), if_neg (by omega), if_pos hHigh,
        if_neg hRange, hShift, hHead hTag, ← hTake]
      rfl
  · rcases sequence_spec (k := 3) hGet with ⟨rfl, hLow, hLe, xs, -, hAll, hTake, hTrail, hShift, -⟩
    rcases h₄ hFour with ⟨hTag, hLead⟩
    refine ⟨by omega, by omega, continuation_bytes hAll (hTake.trans hTrail), Or.inr ?_⟩
    have hHigh : r ≤ 0x1FFFFF := by
      rw [Nat.shiftRight_eq_div_pow] at hShift
      omega
    unfold encodeChar
    rw [if_neg (by omega), if_neg (by omega), if_neg (by omega),
      if_pos hHigh, hShift, hHead hTag, ← hTake]
    rfl
  · rcases sequence_spec (k := 4) hGet with ⟨rfl, hLow, hLe, xs, -, hAll, hTake, hTrail, hShift, -⟩
    rcases h₅ hFive with ⟨hTag, hLead⟩
    refine ⟨by omega, by omega, continuation_bytes hAll (hTake.trans hTrail), Or.inr ?_⟩
    have hHigh : r ≤ 0x3FFFFFF := by
      rw [Nat.shiftRight_eq_div_pow] at hShift
      omega
    unfold encodeChar
    rw [if_neg (by omega), if_neg (by omega), if_neg (by omega),
      if_neg (by omega), if_pos hHigh, hShift, hHead hTag, ← hTake]
    rfl
  · rcases sequence_spec (k := 5) hGet with ⟨rfl, hLow, hLe, xs, -, hAll, hTake, hTrail, hShift, -⟩
    rcases h₆ hSix with ⟨hTag, -⟩
    refine ⟨by omega, by omega, continuation_bytes hAll (hTake.trans hTrail), Or.inr ?_⟩
    unfold encodeChar
    rw [if_neg (by omega), if_neg (by omega), if_neg (by omega),
      if_neg (by omega), if_neg (by omega), hShift, hHead hTag, ← hTake]
    rfl

---
-- One Code Point
---

theorem encodeChar_escape (hRange : 0xDC80 ≤ r ∧ r ≤ 0xDCFF) :
    encodeChar r = [BitVec.ofNat 8 (r &&& 0xFF)] := by
  unfold encodeChar
  rw [if_neg (by omega), if_neg (by omega), if_pos (by omega), if_pos hRange]

/- One byte, or a sequence -/
theorem utf8NextGet_cases {d : Byte} (buf : List Byte) (hNe : d ≠ 0) :
    (∃ r, utf8NextGet (d :: buf) = (r, 1) ∧ r ≠ 0 ∧
      encodeChar r = [d] ∧ ¬ Escaped (d :: buf)) ∨
    ∃ r n, utf8NextGet (d :: buf) = (r, n) ∧ sequenceGet d.toNat buf = some (r, n) := by
  have hZero : d.toNat ≠ 0 := fun hEq =>
    hNe (BitVec.eq_of_toNat_eq hEq)
  have hByte : ∀ {m : Nat}, m = d.toNat → BitVec.ofNat 8 m = d := by
    rintro m rfl
    rw [BitVec.ofNat_toNat, BitVec.setWidth_eq]
  by_cases hAscii : d.toNat &&& 0x80 = 0
  · have hSmall : ∀ d < 256, d &&& 0x80 = 0 → d ≤ 0x7F := by
      set_option maxRecDepth 8000 in decide
    left
    refine ⟨d.toNat, ?_, hZero, ?_, ?_⟩
    · rw [utf8NextGet, if_neg hZero, if_pos hAscii]
    · unfold encodeChar
      rw [if_pos (hSmall d.toNat d.isLt hAscii), hByte rfl]
    · rintro ⟨b, c, rest, hSame, -⟩
      obtain ⟨rfl, -⟩ := List.cons.inj hSame
      exact absurd hAscii (by decide)
  · have hNext : utf8NextGet (d :: buf) =
        (sequenceGet d.toNat buf).getD (0xDC80 ||| d.toNat, 1) := by
      rw [utf8NextGet, if_neg hZero, if_neg hAscii]
    cases hGet : sequenceGet d.toNat buf with
    | none =>
      rcases escape_spec d.toNat d.isLt hAscii with ⟨hLow, hHigh, hSame⟩
      left
      refine ⟨0xDC80 ||| d.toNat, ?_, by omega, ?_, ?_⟩
      · rw [hNext, hGet]
        rfl
      · rw [encodeChar_escape ⟨hLow, hHigh⟩, hByte hSame]
      · rintro ⟨b, c, rest, hSame, hSecond, hThird⟩
        obtain ⟨rfl, rfl⟩ := List.cons.inj hSame
        rcases sequenceGet_escaped rest hSecond hThird with ⟨r, hSome, -⟩
        exact nomatch hGet.symm.trans hSome
    | some p =>
      right
      refine ⟨p.1, p.2, ?_, rfl⟩
      rw [hNext, hGet]
      rfl

/- The end is the only code point that is zero. -/
theorem utf8NextGet_spec {d : Byte} (buf : List Byte) (hNe : d ≠ 0) :
    ∃ r n, utf8NextGet (d :: buf) = (r, n) ∧ r ≠ 0 ∧
      0 < n ∧ n ≤ buf.length + 1 ∧
      (∀ c ∈ buf.take (n - 1), isContinuationByte c.toNat) ∧
      (Escaped (d :: buf) → n = 3 ∧ (encodeChar r).length = 1) ∧
      (¬ Escaped (d :: buf) → encodeChar r = (d :: buf).take n) := by
  rcases utf8NextGet_cases buf hNe with ⟨r, hNext, hr, hChar, hNot⟩ | ⟨r, n, hNext, hGet⟩
  · exact ⟨r, 1, hNext, hr, Nat.one_pos, Nat.le_add_left 1 _, fun c hMem => absurd hMem not_mem_nil,
      fun hEscaped => absurd hEscaped hNot, fun _ => hChar⟩
  · rcases sequenceGet_spec hGet with ⟨hPos, hLe, hTake, hChar⟩
    refine ⟨r, n, hNext, by omega, sequenceGet_pos hGet, hLe, hTake, ?_, ?_⟩
    · rintro ⟨b, c, rest, hSame, hSecond, hThird⟩
      obtain ⟨rfl, rfl⟩ := List.cons.inj hSame
      rcases sequenceGet_escaped rest hSecond hThird with ⟨r', hSome, hRange⟩
      obtain ⟨rfl, rfl⟩ := Prod.mk.inj (some.inj (hSome.symm.trans hGet))
      rw [encodeChar_escape hRange]
      exact ⟨rfl, rfl⟩
    · exact hChar.resolve_left

---
-- Whole Strings
---

/- All code points, written again -/
def rewritten (s : List Byte) : List Byte :=
  (utf8ToUnicode s).flatMap encodeChar

variable {s : List Byte}

theorem utf8ToUnicode_cons (hNext : utf8NextGet s = (r, n))
    (hMore : r ≠ 0) : utf8ToUnicode s = r :: utf8ToUnicode (s.drop n) := by
  unfold utf8ToUnicode
  rw [utf8GetLen, hNext, if_neg hMore, fill, hNext]

theorem utf8ToUnicode_nil : utf8ToUnicode [] = [] := by
  unfold utf8ToUnicode
  rw [utf8GetLen, if_pos (show (utf8NextGet []).1 = 0 from rfl), fill]

/- The escape is found at the start, or behind the first character. -/
theorem escaped_drop {d : Byte} (hTake : ∀ c ∈ buf.take (n - 1), isContinuationByte c.toNat)
    (hPos : 0 < n) :
    (∃ k, Escaped ((d :: buf).drop k)) ↔
      Escaped (d :: buf) ∨ ∃ k, Escaped (((d :: buf).drop n).drop k) := by
  constructor
  · rintro ⟨k, hEscaped⟩
    rcases Nat.eq_zero_or_pos k with rfl | hk
    · exact Or.inl hEscaped
    · by_cases hInside : k < n
      · rcases hEscaped with ⟨b, c, rest, hSame, -⟩
        obtain ⟨k, rfl⟩ : ∃ k', k = k' + 1 := ⟨k - 1, by omega⟩
        rw [drop_succ_cons] at hSame
        have hMem : (0xED : Byte) ∈ buf.take (n - 1) := by
          rw [mem_take_iff_getElem]
          have hk' : k < buf.length := by
            have hLength := congrArg List.length hSame
            rw [length_drop, length_cons] at hLength
            omega
          refine ⟨k, by omega, ?_⟩
          rw [drop_eq_getElem_cons hk'] at hSame
          exact (List.cons.inj hSame).1
        exact absurd (hTake _ hMem) (by decide)
      · refine Or.inr ⟨k - n, ?_⟩
        rwa [drop_drop, Nat.add_sub_cancel' (by omega)]
  · rintro (hEscaped | ⟨k, hEscaped⟩)
    · exact ⟨0, hEscaped⟩
    · refine ⟨n + k, ?_⟩
      rwa [← drop_drop]

theorem rewritten_spec (hNoNul : 0 ∉ s) :
    (rewritten s).length ≤ s.length ∧ (rewritten s = s ↔ ¬ ∃ k, Escaped (s.drop k)) := by
  induction hSize : s.length using Nat.strong_induction_on generalizing s with
  | h size ih =>
    cases s with
    | nil =>
      have hNone : ¬ ∃ k, Escaped (([] : List Byte).drop k) := by
        rintro ⟨k, b, c, rest, hSame, -⟩
        rw [drop_nil] at hSame
        exact nomatch hSame
      rw [rewritten, utf8ToUnicode_nil]
      exact ⟨Nat.zero_le _, fun _ => hNone, fun _ => rfl⟩
    | cons d buf =>
      rw [mem_cons, not_or] at hNoNul
      rcases utf8NextGet_spec buf (Ne.symm hNoNul.1) with
        ⟨r, n, hNext, hr, hPos, hLe, hTake, hBad, hGood⟩
      rw [length_cons] at hSize
      have hDrop : ((d :: buf).drop n).length = size - n := by
        rw [length_drop, length_cons, hSize]
      rcases ih (size - n) (by omega) (s := (d :: buf).drop n)
        (fun hMem => by
          rcases mem_cons.mp (mem_of_mem_drop hMem) with hZero | hZero
          · exact hNoNul.1 hZero
          · exact hNoNul.2 hZero) hDrop with ⟨hShort, hIff⟩
      have hSplit : rewritten (d :: buf) = encodeChar r ++ rewritten ((d :: buf).drop n) := by
        unfold rewritten
        rw [utf8ToUnicode_cons hNext hr, flatMap_cons]
      rw [hSplit, escaped_drop hTake hPos, length_append]
      by_cases hEscaped : Escaped (d :: buf)
      · rcases hBad hEscaped with ⟨rfl, hOne⟩
        refine ⟨by omega, ?_, fun hNone => absurd (Or.inl hEscaped) hNone⟩
        intro hSame
        have hLength := congrArg List.length hSame
        rw [length_append, length_cons] at hLength
        omega
      · have hChar := hGood hEscaped
        have hLength : (encodeChar r).length = n := by
          rw [hChar, length_take, length_cons]
          omega
        refine ⟨by omega, ?_⟩
        rw [or_iff_right hEscaped, ← hIff, hChar]
        conv_lhs => rhs; rw [← take_append_drop n (d :: buf)]
        exact append_right_inj _

theorem utf8ToUnicode_ne_zero (hNoNul : 0 ∉ s) :
    (∀ u ∈ utf8ToUnicode s, u ≠ 0) ∧ (utf8ToUnicode s).length = utf8GetLen s := by
  have hFill : ∀ n buf, (fill n buf).length = n := by
    intro n
    induction n with
    | zero => exact fun _ => rfl
    | succ n ih => exact fun buf => congrArg Nat.succ (ih _)
  refine ⟨?_, hFill _ _⟩
  induction hSize : s.length using Nat.strong_induction_on generalizing s with
  | h size ih =>
    cases s with
    | nil =>
      rw [utf8ToUnicode_nil]
      exact fun _ hMem => absurd hMem not_mem_nil
    | cons d buf =>
      rw [mem_cons, not_or] at hNoNul
      rcases utf8NextGet_spec buf (Ne.symm hNoNul.1) with ⟨r, n, hNext, hr, hPos, -⟩
      rw [utf8ToUnicode_cons hNext hr, forall_mem_cons]
      refine ⟨hr, ih (size - n) ?_ ?_ ?_⟩
      · rw [length_cons] at hSize
        omega
      · intro hMem
        rcases mem_cons.mp (mem_of_mem_drop hMem) with hZero | hZero
        · exact hNoNul.1 hZero
        · exact hNoNul.2 hZero
      · rw [length_drop, hSize]

theorem encode_eq {uni : List Nat} (hNe : ∀ u ∈ uni, u ≠ 0) :
    unicodeStrlen uni = uni.length ∧ encode uni uni.length = uni.flatMap encodeChar := by
  induction uni with
  | nil => exact ⟨rfl, rfl⟩
  | cons u uni ih =>
    rw [forall_mem_cons] at hNe
    rcases ih hNe.2 with ⟨hStrlen, hEncode⟩
    constructor
    · unfold unicodeStrlen at hStrlen ⊢
      rw [takeWhile_cons_of_pos (by simpa using hNe.1), length_cons, hStrlen, length_cons]
    · rw [length_cons, encode, if_pos ⟨hNe.1, Nat.succ_pos _⟩,
        Nat.add_sub_cancel, hEncode, flatMap_cons]

theorem unicodeToUtf8_utf8ToUnicode (hNoNul : 0 ∉ s) :
    unicodeToUtf8 (utf8ToUnicode s) =
      if (utf8GetLen s + 1) * 6 ≤ 2147483647 then
        some (rewritten s)
      else
        none := by
  rcases utf8ToUnicode_ne_zero hNoNul with ⟨hNe, hLength⟩
  rcases encode_eq hNe with ⟨hStrlen, hEncode⟩
  unfold unicodeToUtf8
  rw [hStrlen, hEncode, hLength, rewritten]

/-
  A string comes back, if the size of the block fits and no
  sequence of it is the code point of an escaped byte.
-/
theorem roundTrip_iff (s : CString) :
    unicodeToUtf8 (utf8ToUnicode s.chars) = some s.chars ↔
      (utf8GetLen s.chars + 1) * 6 ≤ 2147483647 ∧
        ¬ ∃ k, Escaped (s.chars.drop k) := by
  rw [unicodeToUtf8_utf8ToUnicode s.noNul]
  split
  case isTrue hSize =>
    rw [some_inj, (rewritten_spec s.noNul).2]
    exact (and_iff_right hSize).symm
  case isFalse hSize =>
    constructor
    · intro hSame
      exact nomatch hSame
    · exact fun hBoth => absurd hBoth.1 hSize

/- The code point U+DC80 is one byte afterwards. -/
theorem roundTrip_loses :
    unicodeToUtf8 (utf8ToUnicode [0xED, 0xB2, 0x80]) ≠
      some [0xED, 0xB2, 0x80] := by
  have hNext : utf8NextGet [0xED, 0xB2, 0x80] = (0xDC80, 3) := by
    decide
  have hAll : utf8ToUnicode [0xED, 0xB2, 0x80] = [0xDC80] := by
    rw [utf8ToUnicode_cons hNext (by decide)]
    exact congrArg _ utf8ToUnicode_nil
  have hByte : unicodeToUtf8 [0xDC80] = some [0x80] := by
    decide
  rw [hAll, hByte]
  decide

end Efl.Unicode
