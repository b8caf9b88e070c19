import Efl.Eina.Unicode

/-
  Code points that are written and read again, and steps over
  UTF-8 in both directions.

  Main declarations:
    * `Points`, `encodeLen`
    * `utf8GetPrev`, `walkBack`, `starts`
    * `writeRead_iff`
    * `walkBack_iff`
-/

namespace Efl.Unicode

open Bytes List Option

---
-- Reading What Was Written
---

/- Code points without the range of the escaped bytes -/
structure Points where
  points : List Nat
  inRange : ∀ u ∈ points, 0 < u ∧ u ≤ 0x7FFFFFFF ∧
    ¬ (0xDC80 ≤ u ∧ u ≤ 0xDCFF)

/- What is added to `len` for one code point -/
def charLen (u : Nat) : Nat :=
  if u ≤ 0x7F then 1
  else if u ≤ 0x7FF then 2
  else if u ≤ 0xFFFF then
    if 0xDC80 ≤ u ∧ u ≤ 0xDCFF then 1 else 3
  else if u ≤ 0x1FFFFF then 4
  else if u ≤ 0x3FFFFFF then 5
  else 6

/- The `len` of `eina_unicode_unicode_to_utf8_range` -/
def encodeLen : List Nat → Nat → Nat
  | [], _ => 0
  | u :: uni, ulen =>
    if u ≠ 0 ∧ 0 < ulen then charLen u + encodeLen uni (ulen - 1)
    else 0

theorem length_encodeChar (u : Nat) : (encodeChar u).length = charLen u := by
  unfold encodeChar charLen
  split_ifs <;> rfl

theorem encodeLen_eq (uni : List Nat) (ulen : Nat) :
    encodeLen uni ulen = (encode uni ulen).length := by
  induction uni generalizing ulen with
  | nil => rfl
  | cons u uni ih =>
    rw [encodeLen, encode]
    split
    case isTrue => rw [length_append, length_encodeChar, ih]
    case isFalse => rfl

theorem following_trail (n u : Nat) (rest : List Byte) :
    following n (u >>> (6 * n) <<< (6 * n)) (trail n u ++ rest) = some u := by
  induction n with
  | zero => rfl
  | succ n ih =>
    have hBytes : ∀ x < 64, ¬ ((BitVec.ofNat 8 (0x80 ||| x)).toNat = 0 ∨
        isInvalidByte (BitVec.ofNat 8 (0x80 ||| x)).toNat ∨
        ¬ isContinuationByte (BitVec.ofNat 8 (0x80 ||| x)).toNat) ∧
        (BitVec.ofNat 8 (0x80 ||| x)).toNat &&& 0x3f = x := by
      decide
    have hSix : u >>> (6 * n) &&& 0x3F < 64 := Nat.and_lt_two_pow _ (n := 6) (by decide)
    rcases hBytes _ hSix with ⟨hByte, hBits⟩
    have hSum : u >>> (6 * (n + 1)) * 64 + (u >>> (6 * n) &&& 0x3F) = u >>> (6 * n) := by
      rw [show 6 * (n + 1) = 6 * n + 6 from rfl, Nat.shiftRight_add, Nat.shiftRight_eq_div_pow _ 6,
        show 0x3F = 2 ^ 6 - 1 from rfl, Nat.and_two_pow_sub_one_eq_mod]
      omega
    rw [trail, cons_append, following, if_neg hByte, hBits, or_sixes _ n hSix, hSum, ih]

theorem sequence_trail (k : Nat) {u limit : Nat} (rest : List Byte)
    (hLimit : limit < u) :
    sequence (trail k u ++ rest) k (u >>> (6 * k) <<< (6 * k)) limit = some (u, k + 1) := by
  rw [sequence, following_trail, bind_eq_bind, bind_some, if_neg (Nat.not_le.mpr hLimit)]

theorem next_of_sequence {d : Byte} {buf : List Byte} {p : Nat × Nat} (hHigh : d.toNat &&& 0x80 ≠ 0)
    (hGet : sequenceGet d.toNat buf = some p) : utf8NextGet (d :: buf) = p := by
  have hZero : d.toNat ≠ 0 := by
    intro hZero
    rw [hZero] at hHigh
    exact hHigh rfl
  rw [utf8NextGet, if_neg hZero, if_neg hHigh, hGet, getD_some]

/- Each of the six forms is read as what was written. -/
theorem utf8NextGet_encodeChar {u : Nat} (rest : List Byte) (hPos : 0 < u) (hMax : u ≤ 0x7FFFFFFF)
    (hEscape : ¬ (0xDC80 ≤ u ∧ u ≤ 0xDCFF)) :
    utf8NextGet (encodeChar u ++ rest) = (u, charLen u) := by
  have hMask : ∀ {n k : Nat}, u >>> n < 2 ^ k →
      u >>> n &&& (2 ^ k - 1) = u >>> n := Nat.and_two_pow_sub_one_of_lt_two_pow
  have hShift : ∀ {n k : Nat}, u < 2 ^ (n + k) → u >>> n < 2 ^ k := by
    intro n k hLess
    rw [Nat.shiftRight_eq_div_pow]
    exact Nat.div_lt_of_lt_mul (Nat.pow_add 2 n k ▸ hLess)
  unfold encodeChar charLen
  split_ifs with h₁ h₂ h₃ h₄ h₅
  · have hBytes : ∀ u < 128, (BitVec.ofNat 8 u).toNat = u ∧ u &&& 0x80 = 0 := by decide
    rcases hBytes u (by omega) with ⟨hSame, hLow⟩
    rw [singleton_append, utf8NextGet, hSame, if_neg (by omega), if_pos hLow]
  · have hLead : ∀ a < 32, let d := (BitVec.ofNat 8 (0xC0 ||| a)).toNat
        d &&& 0x80 ≠ 0 ∧ d &&& 0xe0 = 0xc0 ∧ d &&& 0x1f = a := by
      decide
    rcases hLead (u >>> 6) (hShift (k := 5) (by omega)) with ⟨hHigh, hTag, hBits⟩
    apply next_of_sequence hHigh
    rw [sequenceGet, if_pos hTag, hBits]
    exact sequence_trail 1 rest (by omega)
  · have hLead : ∀ a < 16, let d := (BitVec.ofNat 8 (0xE0 ||| a)).toNat
        d &&& 0x80 ≠ 0 ∧ d &&& 0xe0 ≠ 0xc0 ∧ d &&& 0xf0 = 0xe0 ∧ d &&& 0x0f = a := by
      decide
    rcases hLead (u >>> 12) (hShift (k := 4) (by omega)) with ⟨hHigh, hTwo, hTag, hBits⟩
    apply next_of_sequence hHigh
    rw [sequenceGet, if_neg hTwo, if_pos hTag, hBits]
    exact sequence_trail 2 rest (by omega)
  · have hLead : ∀ a < 8, let d := (BitVec.ofNat 8 (0xF0 ||| a)).toNat
        d &&& 0x80 ≠ 0 ∧ d &&& 0xe0 ≠ 0xc0 ∧ d &&& 0xf0 ≠ 0xe0 ∧ d &&& 0xf8 = 0xf0 ∧
        d &&& 0x07 = a := by
      decide
    have hSmall := hShift (n := 18) (k := 3) (by omega)
    rcases hLead (u >>> 18) hSmall with ⟨hHigh, hTwo, hThree, hTag, hBits⟩
    rw [show 0x07 = 2 ^ 3 - 1 from rfl, hMask hSmall]
    apply next_of_sequence hHigh
    rw [sequenceGet, if_neg hTwo, if_neg hThree, if_pos hTag, hBits]
    exact sequence_trail 3 rest (by omega)
  · have hLead : ∀ a < 4, let d := (BitVec.ofNat 8 (0xF8 ||| a)).toNat
        d &&& 0x80 ≠ 0 ∧ d &&& 0xe0 ≠ 0xc0 ∧ d &&& 0xf0 ≠ 0xe0 ∧ d &&& 0xf8 ≠ 0xf0 ∧
        d &&& 0xfc = 0xf8 ∧ d &&& 0x03 = a := by
      decide
    have hSmall := hShift (n := 24) (k := 2) (by omega)
    rcases hLead (u >>> 24) hSmall with ⟨hHigh, hTwo, hThree, hFour, hTag, hBits⟩
    rw [show 0x03 = 2 ^ 2 - 1 from rfl, hMask hSmall]
    apply next_of_sequence hHigh
    rw [sequenceGet, if_neg hTwo, if_neg hThree, if_neg hFour, if_pos hTag, hBits]
    exact sequence_trail 4 rest (by omega)
  · have hLead : ∀ a < 2, let d := (BitVec.ofNat 8 (0xFC ||| a)).toNat
        d &&& 0x80 ≠ 0 ∧ d &&& 0xe0 ≠ 0xc0 ∧ d &&& 0xf0 ≠ 0xe0 ∧ d &&& 0xf8 ≠ 0xf0 ∧
        d &&& 0xfc ≠ 0xf8 ∧ d &&& 0xfe = 0xfc ∧ d &&& 0x01 = a := by
      decide
    have hSmall := hShift (n := 30) (k := 1) (by omega)
    rcases hLead (u >>> 30) hSmall with ⟨hHigh, hTwo, hThree, hFour, hFive, hTag, hBits⟩
    rw [show 0x01 = 2 ^ 1 - 1 from rfl, hMask hSmall]
    apply next_of_sequence hHigh
    rw [sequenceGet, if_neg hTwo, if_neg hThree, if_neg hFour, if_neg hFive, if_pos hTag, hBits]
    exact sequence_trail 5 rest (by omega)

theorem utf8ToUnicode_encode (uni : Points) :
    utf8ToUnicode (uni.points.flatMap encodeChar) = uni.points := by
  rcases uni with ⟨uni, hRange⟩
  induction uni with
  | nil => exact utf8ToUnicode_nil
  | cons u uni ih =>
    rw [forall_mem_cons] at hRange
    rcases hRange with ⟨⟨hPos, hMax, hEscape⟩, hRest⟩
    have hNext := utf8NextGet_encodeChar (uni.flatMap encodeChar) hPos hMax hEscape
    dsimp only
    rw [flatMap_cons, utf8ToUnicode_cons hNext (by omega), drop_left' (length_encodeChar u)]
    exact congrArg _ (ih hRest)

/-
  Code points come back, and `len` is the number of bytes, if
  the size of the block fits.
-/
theorem writeRead_iff (uni : Points) :
    (∃ s, unicodeToUtf8 uni.points = some s ∧
      utf8ToUnicode s = uni.points ∧
      encodeLen uni.points (unicodeStrlen uni.points) = s.length) ↔
      (uni.points.length + 1) * 6 ≤ 2147483647 := by
  have hNe : ∀ u ∈ uni.points, u ≠ 0 := fun u hMem =>
    Nat.ne_of_gt (uni.inRange u hMem).1
  rcases encode_eq hNe with ⟨hStrlen, hEncode⟩
  unfold unicodeToUtf8
  rw [hStrlen]
  split
  case isTrue hSize =>
    refine ⟨fun _ => hSize, fun _ => ⟨_, rfl, ?_, ?_⟩⟩
    · rw [hEncode]
      exact utf8ToUnicode_encode uni
    · exact encodeLen_eq _ _
  case isFalse hSize =>
    constructor
    · rintro ⟨s, hNone, -⟩
      exact nomatch hNone
    · exact fun hLe => absurd hLe hSize

/- For so many code points the size is more than an `int`. -/
theorem writeRead_overflows :
    ¬ ∃ s, unicodeToUtf8 (List.replicate 357913941 0x61) = some s ∧
      utf8ToUnicode s = List.replicate 357913941 0x61 := by
  have hNe : ∀ u ∈ List.replicate 357913941 0x61, u ≠ 0 := by
    intro u hMem
    rw [eq_of_mem_replicate hMem]
    decide
  rintro ⟨s, hSome, -⟩
  unfold unicodeToUtf8 at hSome
  rw [(encode_eq hNe).1, length_replicate, if_neg (by decide)] at hSome
  exact nomatch hSome

---
-- Steps
---

/- The byte at `i` continues a sequence. -/
def continues (s : List Byte) (i : Nat) : Bool :=
  isContinuationByte (s.getD i 0).toNat

/- The loop that goes back -/
def back (s : List Byte) : Nat → Nat
  | 0 => 0
  | i + 1 => if continues s (i + 1) then back s i else i + 1

/- `eina_unicode_utf8_get_prev`: the code point, and the index -/
def utf8GetPrev (s : List Byte) (i : Nat) : Nat × Nat :=
  let r := (utf8NextGet (s.drop i)).1
  if i = 0 then (r, i) else (r, back s (i - 1))

theorem back_le (s : List Byte) (i : Nat) : back s i ≤ i := by
  induction i with
  | zero => exact Nat.le_refl 0
  | succ i ih =>
    rw [back]
    split
    case isTrue => exact Nat.le_succ_of_le ih
    case isFalse => exact Nat.le_refl _

theorem utf8GetPrev_of_pos (s : List Byte) {i : Nat} (hPos : i ≠ 0) :
    (utf8GetPrev s i).2 = back s (i - 1) := by
  unfold utf8GetPrev
  rw [if_neg hPos]

/- The indices that are visited from `i` on backwards -/
def walkBack (s : List Byte) (i : Nat) : List Nat :=
  if i = 0 then []
  else (utf8GetPrev s i).2 :: walkBack s (utf8GetPrev s i).2
termination_by i
decreasing_by
  rw [utf8GetPrev_of_pos s ‹_›]
  have hLe := back_le s (i - 1)
  omega

/- The indices that `eina_unicode_utf8_next_get` starts from -/
def starts (p : Nat) (buf : List Byte) : List Nat :=
  if (utf8NextGet buf).1 = 0 then []
  else
    p :: starts (p + (utf8NextGet buf).2)
      (buf.drop (utf8NextGet buf).2)
termination_by buf.length
decreasing_by exact utf8NextGet_advance ‹_›

/- A valid sequence at `j` contains the byte at `i`. -/
def Contains (s : List Byte) (j i : Nat) : Prop :=
  ∃ d buf r n, s.drop j = d :: buf ∧
    sequenceGet d.toNat buf = some (r, n) ∧ j < i ∧ i < j + n

/- The indices where the way back can stop -/
def stops (s : List Byte) (i : Nat) : Bool :=
  i = 0 ∨ ¬ continues s i

theorem walkBack_eq (s : List Byte) (i : Nat) :
    walkBack s i = ((List.range i).filter (stops s)).reverse := by
  induction i with
  | zero =>
    rw [walkBack]
    rfl
  | succ i ih =>
    rw [range_succ, filter_append, reverse_append, ← ih, walkBack, if_neg (Nat.succ_ne_zero i),
      utf8GetPrev_of_pos s (Nat.succ_ne_zero i), Nat.succ_sub_one]
    by_cases hStop : stops s i
    · have hBack : back s i = i := by
        cases i with
        | zero => rfl
        | succ i =>
          simp only [stops, Nat.succ_ne_zero, false_or, decide_eq_true_eq] at hStop
          rw [back, if_neg hStop]
      rw [hBack, filter_singleton, hStop]
      rfl
    · cases i with
      | zero => simp [stops] at hStop
      | succ i =>
        have hOver : continues s (i + 1) := by
          simpa [stops] using hStop
        rw [back, if_pos hOver, filter_singleton, Bool.eq_false_iff.mpr hStop]
        conv_rhs => rw [walkBack, if_neg (Nat.succ_ne_zero i),
          utf8GetPrev_of_pos s (Nat.succ_ne_zero i)]
        rfl

theorem starts_cons {p : Nat} {buf : List Byte} {r n : Nat}
    (hNext : utf8NextGet buf = (r, n)) (hMore : r ≠ 0) :
    starts p buf = p :: starts (p + n) (buf.drop n) := by
  rw [starts, hNext, if_neg hMore]

/-
  From `p` on, every index where the way back can stop is
  visited, and the characters lie one behind the other.
-/
theorem starts_spec {s : List Byte} (hNoNul : 0 ∉ s) {p : Nat}
    (hLe : p ≤ s.length) :
    (starts p (s.drop p)).filter (stops s) =
        (List.range' p (s.length - p)).filter (stops s) ∧
      (∀ i, p ≤ i → i < s.length → ∃ j ∈ starts p (s.drop p),
        j ≤ i ∧ i < j + (utf8NextGet (s.drop j)).2) ∧
      ∀ j ∈ starts p (s.drop p), p ≤ j ∧
        ∀ k ∈ starts p (s.drop p), j < k → j + (utf8NextGet (s.drop j)).2 ≤ k := by
  induction hSize : s.length - p using Nat.strong_induction_on generalizing p with
  | h size ih =>
    rcases Nat.eq_zero_or_pos size with rfl | hMore
    · have hEnd : s.drop p = [] := drop_eq_nil_of_le (by omega)
      have hNone : starts p [] = [] := by
        rw [starts, if_pos (by rfl)]
      rw [hEnd, hNone]
      refine ⟨rfl, fun i hi hi' => by omega, fun j hMem => ?_⟩
      exact absurd hMem not_mem_nil
    · have hLess : p < s.length := by omega
      have hCons := drop_eq_getElem_cons hLess
      have hNe : s[p] ≠ 0 := fun hZero =>
        hNoNul (hZero ▸ getElem_mem hLess)
      rcases utf8NextGet_spec (s.drop (p + 1)) hNe with ⟨r, n, hNext, hr, hPos, hn, hTake, -⟩
      rw [← hCons] at hNext
      rw [length_drop] at hn
      have hStarts := starts_cons (p := p) hNext hr
      rw [drop_drop] at hStarts
      rcases ih (size - n) (by omega) (p := p + n) (by omega)
        (by omega) with ⟨hFilter, hCovered, hApart⟩
      rw [hStarts]
      refine ⟨?_, ?_, ?_⟩
      · have hInside : (List.range' (p + 1) (n - 1)).filter (stops s) = [] := by
          rw [filter_eq_nil_iff]
          intro i hMem
          rw [List.mem_range'_1] at hMem
          have hByte : s.getD i 0 ∈ (s.drop (p + 1)).take (n - 1) := by
            rw [mem_take_iff_getElem]
            refine ⟨i - (p + 1), ?_, ?_⟩
            · rw [length_drop]
              omega
            · rw [getElem_drop, List.getD_eq_getElem _ _ (by omega)]
              congr 1
              omega
          have hOver := hTake _ hByte
          simp only [stops, continues, hOver, not_true, or_false, decide_eq_true_eq]
          omega
        have hRange : List.range' p size = p :: (List.range' (p + 1) (n - 1) ++
          List.range' (p + n) (size - n)) := by
          rw [show p + n = p + 1 + (n - 1) by omega, List.range'_append_1, ← List.range'_succ]
          congr 1
          omega
        rw [hRange, filter_cons, filter_cons, filter_append, hInside, nil_append, hFilter]
      · intro i hi hi'
        by_cases hHere : i < p + n
        · refine ⟨p, mem_cons_self, hi, ?_⟩
          rw [hNext]
          exact hHere
        · rcases hCovered i (by omega) hi' with ⟨j, hMem, hj⟩
          exact ⟨j, mem_cons_of_mem _ hMem, hj⟩
      · intro j hj
        rcases mem_cons.mp hj with rfl | hj
        · refine ⟨Nat.le_refl j, fun k hk hBehind => ?_⟩
          rw [hNext]
          rcases mem_cons.mp hk with rfl | hk
          · exact absurd hBehind (Nat.lt_irrefl k)
          · exact (hApart k hk).1
        · have hFirst := (hApart j hj).1
          refine ⟨by omega, fun k hk hBehind => ?_⟩
          rcases mem_cons.mp hk with rfl | hk
          · omega
          · exact (hApart j hj).2 k hk hBehind

theorem lead_not_continuation {d : Byte} {buf : List Byte}
    {p : Nat × Nat} (hGet : sequenceGet d.toNat buf = some p) :
    d.toNat &&& 0x80 ≠ 0 ∧ isContinuationByte d.toNat = false := by
  have hBytes : ∀ d < 256,
      d &&& 0xe0 = 0xc0 ∨ d &&& 0xf0 = 0xe0 ∨ d &&& 0xf8 = 0xf0 ∨
        d &&& 0xfc = 0xf8 ∨ d &&& 0xfe = 0xfc →
      d &&& 0x80 ≠ 0 ∧ isContinuationByte d = false := by
    set_option maxRecDepth 8000 in decide
  apply hBytes d.toNat d.isLt
  unfold sequenceGet at hGet
  split_ifs at hGet with h₁ h₂ h₃ h₄ h₅
  · exact Or.inl h₁
  · exact Or.inr (Or.inl h₂)
  · exact Or.inr (Or.inr (Or.inl h₃))
  · exact Or.inr (Or.inr (Or.inr (Or.inl h₄)))
  · exact Or.inr (Or.inr (Or.inr (Or.inr h₅)))

/-
  The way back visits what the way forwards visits, if every
  continuation byte but the first byte is in a valid sequence.
-/
theorem walkBack_iff (s : CString) :
    walkBack s.chars s.chars.length = (starts 0 s.chars).reverse ↔
      ∀ i, 0 < i → i < s.chars.length → continues s.chars i →
        ∃ j, Contains s.chars j i := by
  rcases s with ⟨s, hNoNul⟩
  dsimp only
  rcases starts_spec hNoNul (Nat.zero_le s.length) with
    ⟨hFilter, hCovered, hApart⟩
  rw [drop_zero] at hFilter hCovered hApart
  rw [walkBack_eq, reverse_inj, range_eq_range', ← Nat.sub_zero
    s.length, ← hFilter, filter_eq_self]
  constructor
  · intro hAll i hi hLess hOver
    rcases hCovered i (Nat.zero_le i) hLess with ⟨j, hMem, hLe, hEnd⟩
    have hBefore : j < i := by
      refine Nat.lt_of_le_of_ne hLe ?_
      rintro rfl
      simpa [stops, hOver, Nat.ne_of_gt hi] using hAll j hMem
    have hCons := drop_eq_getElem_cons (Nat.lt_trans hBefore hLess)
    have hNe : s[j] ≠ 0 := fun hZero =>
      hNoNul (hZero ▸ getElem_mem _)
    rcases utf8NextGet_cases (s.drop (j + 1)) hNe with
      ⟨r, hNext, -⟩ | ⟨r, n, hNext, hGet⟩
    · rw [hCons, hNext] at hEnd
      dsimp only at hEnd
      omega
    · rw [hCons, hNext] at hEnd
      exact ⟨j, _, _, r, n, hCons, hGet, hBefore, hEnd⟩
  · intro hAll k hk
    by_contra hNot
    have hLater : 0 < k ∧ continues s k := by
      simp only [stops, decide_eq_true_eq, not_or, not_not] at hNot
      exact ⟨Nat.pos_of_ne_zero hNot.1, hNot.2⟩
    have hLess : k < s.length := by
      by_contra hOut
      have hOver := hLater.2
      rw [continues, getD_eq_default _ _ (by omega)] at hOver
      exact absurd hOver (by decide)
    rcases hAll k hLater.1 hLess hLater.2 with
      ⟨j, d, buf, r, n, hCons, hGet, hBefore, hEnd⟩
    rcases lead_not_continuation hGet with ⟨hHigh, hLead⟩
    have hAt : s.getD j 0 = d := by
      rw [getD_eq_getElem?_getD, ← Nat.add_zero j, ← getElem?_drop,
        hCons]
      rfl
    have hStop : stops s j := by
      unfold stops continues
      rw [hAt, hLead]
      simp
    have hMem : j ∈ (List.range' 0 (s.length - 0)).filter
        (stops s) := by
      rw [mem_filter, List.mem_range'_1]
      exact ⟨⟨Nat.zero_le j, by omega⟩, hStop⟩
    rw [← hFilter, mem_filter] at hMem
    have hBehind := (hApart j hMem.1).2 k hk hBefore
    rw [hCons, next_of_sequence hHigh hGet] at hBehind
    exact absurd hEnd (Nat.not_lt.mpr hBehind)

/- The last byte of this string is not visited on the way back. -/
theorem walkBack_skips :
    walkBack [0x61, 0x80] 2 ≠ (starts 0 [0x61, 0x80]).reverse := by
  have hStarts : starts 0 [0x61, 0x80] = [0, 1] := by
    rw [starts_cons (r := 0x61) (n := 1) (by decide) (by decide)]
    rw [starts_cons (r := 0xDC80) (n := 1) (by decide) (by decide)]
    rw [starts, if_pos (by decide)]
  rw [hStarts, walkBack_eq]
  decide

end Efl.Unicode
