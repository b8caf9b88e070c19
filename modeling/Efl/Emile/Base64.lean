import Efl.Lib.Bytes

/-
  Base64, with the alphabet for URLs or without.

  A write beyond the block and an `int` that overflows are
  `none`; a decoder that returns NULL is `some none`.  The
  lengths themselves fit in an `int`.

  Main declarations:
    * `encode`, `decode`
    * `rfc4648`
    * `encode_eq`
    * `decode_rfc4648`, `decode_bounds`
-/

---
-- Encoding
---

namespace Efl.Base64

open Bytes List Option

/- The characters of the tables, `base64_table_url` if asked for -/
def table (url : Bool) : List Byte :=
  ((List.range' 65 26 ++ List.range' 97 26 ++ List.range' 48 10) ++
    if url then [45, 95] else [43, 47]).map (BitVec.ofNat 8)

/- `isalnum` is that of the C locale. -/
def isBase64Char (url : Bool) (c : Nat) : Bool :=
  65 ≤ c ∧ c ≤ 90 ∨ 97 ≤ c ∧ c ≤ 122 ∨ 48 ≤ c ∧ c ≤ 57 ∨
    if url then c = 45 ∨ c = 95 else c = 43 ∨ c = 47

/- `=` -/
def pad : Byte := 61

/- What is written to a block so far, and more -/
def put (size : Nat) (dest cs : List Byte) : Option (List Byte) :=
  if dest.length + cs.length ≤ size then some (dest ++ cs) else none

/- The four characters of a group -/
def outEncoded (url : Bool) (a b c : Nat) : List Byte :=
  [(a &&& 0xfc) >>> 2,
    ((a &&& 0x03) <<< 4) + ((b &&& 0xf0) >>> 4),
    ((b &&& 0x0f) <<< 2) + ((c &&& 0xc0) >>> 6),
    c &&& 0x3f].map fun i => (table url).getD i 0

/- The loop: what is left of the last group, and the block -/
def encodeLoop (url : Bool) (size : Nat) : List Byte → List Byte → List Byte →
      Option (List Byte × List Byte)
  | [], inarr, dest => some (inarr, dest)
  | s :: src, inarr, dest =>
    match inarr ++ [s] with
    | [a, b, c] => do
      let dest ← put size dest
        (outEncoded url a.toNat b.toNat c.toNat)
      encodeLoop url size src [] dest
    | inarr => encodeLoop url size src inarr dest

/- What the encoder does after its loop -/
def encodeTail (url : Bool) (size : Nat) (inarr dest : List Byte) : Option (List Byte) := do
  let i := inarr.length
  let dest ←
    if i = 0 then some dest
    else do
      let out := outEncoded url (inarr.getD 0 0).toNat
        (inarr.getD 1 0).toNat (inarr.getD 2 0).toNat
      let dest ← put size dest (out.take (i + 1))
      if url then some dest
      else put size dest (List.replicate (3 - i) pad)
  let _ ← put size dest [0]
  some dest

/- `emile_base64_encode_common` -/
def encode (url : Bool) (src : List Byte) : Option (List Byte) := do
  let size := (src.length + 2) / 3 * 4 + 1
  let (inarr, dest) ← encodeLoop url size src [] []
  encodeTail url size inarr dest

---
-- Decoding
---

/- `strchr` in the table, which finds the NUL at its end -/
def value (url : Bool) (c : Byte) : Nat :=
  (table url ++ [0]).idxOf c

/- The three bytes of a group -/
def outDecoded (a b c d : Nat) : List Byte :=
  [(a <<< 2) + ((b &&& 0x30) >>> 4),
    ((b &&& 0xf) <<< 4) + ((c &&& 0x3c) >>> 2),
    ((c &&& 0x3) <<< 6) + d].map (BitVec.ofNat 8)

def decodeLoop (url : Bool) (size : Nat) : List Byte → List Byte → List Byte →
      Option (List Byte × List Byte)
  | [], inarr, dest => some (inarr, dest)
  | s :: src, inarr, dest =>
    if s ≠ pad ∧ isBase64Char url s.toNat then
      match inarr ++ [s] with
      | [a, b, c, d] => do
        let dest ← put size dest (outDecoded (value url a)
          (value url b) (value url c) (value url d))
        decodeLoop url size src [] dest
      | inarr => decodeLoop url size src inarr dest
    else
      some (inarr, dest)

/- What is done after the loop -/
def decodeTail (url : Bool) (size : Nat) (inarr dest : List Byte) : Option (List Byte) := do
  let i := inarr.length
  let dest ←
    if i = 0 then some dest
    else
      let out := outDecoded (value url (inarr.getD 0 0))
        (value url (inarr.getD 1 0)) (value url (inarr.getD 2 0))
        (value url (inarr.getD 3 0))
      put size dest (out.take (i - 1))
  let _ ← put size dest [0]
  some dest

/- `emile_base64_decode_common` -/
def decode (url : Bool) (src : List Byte) : Option (Option (List Byte)) :=
  let len := src.length
  if url = false ∧ len % 4 ≠ 0 then
    some none
  else if 2147483647 < len * 3 then
    none
  else do
    let size := len * 3 / 4 + 1
    let (inarr, dest) ← decodeLoop url size src [] []
    let dest ← decodeTail url size inarr dest
    some (some dest)

---
-- The Format
---

/- Six bits of a group of 24, as a character -/
def digit (url : Bool) (n shift : Nat) : Byte :=
  (table url).getD (n / 2 ^ shift % 64) 0

/-
  RFC 4648: groups of 24 bits, with zeros on the right in the
  last one, and with padding if it is not for URLs.
-/
def rfc4648 (url : Bool) : List Byte → List Byte
  | [] => []
  | [a] =>
    let n := a.toNat * 65536
    [digit url n 18, digit url n 12] ++
      if url then [] else [pad, pad]
  | [a, b] =>
    let n := a.toNat * 65536 + b.toNat * 256
    [digit url n 18, digit url n 12, digit url n 6] ++
      if url then [] else [pad]
  | a :: b :: c :: src =>
    let n := a.toNat * 65536 + b.toNat * 256 + c.toNat
    [digit url n 18, digit url n 12, digit url n 6,
      digit url n 0] ++ rfc4648 url src

theorem length_rfc4648 (url : Bool) (src : List Byte) :
    (rfc4648 url src).length =
      if url then src.length + (src.length + 2) / 3
      else (src.length + 2) / 3 * 4 := by
  fun_induction rfc4648 url src with
  | case1 => cases url <;> rfl
  | case2 => cases url <;> simp
  | case3 => cases url <;> simp
  | case4 a b c src n ih =>
    rw [length_append, ih]
    cases url <;> simp <;> omega

/- The bits of the bytes that are encoded -/
theorem encoded_bits :
    ∀ a < 256, (a &&& 0xfc) >>> 2 = a / 4 ∧
      (a &&& 0x03) <<< 4 = a % 4 * 16 ∧
      (a &&& 0xf0) >>> 4 = a / 16 ∧
      (a &&& 0x0f) <<< 2 = a % 16 * 4 ∧ (a &&& 0xc0) >>> 6 = a / 64 ∧ a &&& 0x3f = a % 64 := by
  set_option maxRecDepth 8000 in decide

theorem outEncoded_eq (url : Bool) (a b c : Byte) :
    outEncoded url a.toNat b.toNat c.toNat = [18, 12, 6, 0].map
      (digit url (a.toNat * 65536 + b.toNat * 256 + c.toNat)) := by
  rcases encoded_bits a.toNat a.isLt with ⟨ha₁, ha₂, -⟩
  rcases encoded_bits b.toNat b.isLt with ⟨-, -, hb₁, hb₂, -⟩
  rcases encoded_bits c.toNat c.isLt with ⟨-, -, -, -, hc₁, hc₂⟩
  have h₁₈ : (a.toNat * 65536 + b.toNat * 256 + c.toNat) / 2 ^ 18 % 64 = a.toNat / 4 := by
    omega
  have h₁₂ : (a.toNat * 65536 + b.toNat * 256 + c.toNat) /
      2 ^ 12 % 64 = a.toNat % 4 * 16 + b.toNat / 16 := by
    omega
  have h₆ : (a.toNat * 65536 + b.toNat * 256 + c.toNat) /
      2 ^ 6 % 64 = b.toNat % 16 * 4 + c.toNat / 64 := by
    omega
  have h₀ : (a.toNat * 65536 + b.toNat * 256 + c.toNat) / 2 ^ 0 % 64 = c.toNat % 64 := by
    omega
  unfold outEncoded
  simp only [map_cons, map_nil, digit]
  rw [ha₁, ha₂, hb₁, hb₂, hc₁, hc₂, h₁₈, h₁₂, h₆, h₀]

variable {size : Nat} {dest : List Byte}

theorem put_of_le {cs : List Byte}
    (hFits : dest.length + cs.length ≤ size) :
    put size dest cs = some (dest ++ cs) := if_pos hFits

variable {inarr : List Byte} {i : Nat}

theorem encodeTail_spec (url : Bool) {n : Nat} (hSome : inarr.length = i ∧ i ≠ 0)
    (hOut : outEncoded url (inarr.getD 0 0).toNat (inarr.getD 1 0).toNat
    (inarr.getD 2 0).toNat = [18, 12, 6, 0].map (digit url n))
    (hFits : dest.length + (([18, 12, 6, 0].map (digit url n)).take
    (i + 1)).length + (if url then 0 else 3 - i) + 1 ≤ size) :
    encodeTail url size inarr dest =
      some (dest ++ (([18, 12, 6, 0].map (digit url n)).take (i + 1) ++
          if url then [] else List.replicate (3 - i) pad)) := by
  unfold encodeTail
  rw [hSome.1, hOut, if_neg hSome.2]
  dsimp only
  generalize ([18, 12, 6, 0].map (digit url n)).take (i + 1) = out at hFits ⊢
  rw [put_of_le (by omega)]
  cases url with
  | true =>
    change (put size (dest ++ out) [0]).bind _ = _
    rw [put_of_le (by
      rw [length_append]
      exact hFits), if_pos rfl, append_nil]
    rfl
  | false =>
    rw [if_neg Bool.false_ne_true] at hFits ⊢
    change (put size (dest ++ out) _ >>= fun dest =>
      put size dest [0] >>= fun _ => some dest) = _
    rw [put_of_le (by
      rw [length_append, length_replicate]
      omega), bind_eq_bind, bind_some, put_of_le (by
      rw [length_append, length_append, length_replicate]
      exact hFits)]
    exact congrArg some (append_assoc dest out _)

theorem encodeLoop_spec (url : Bool) (size : Nat) (src dest : List Byte)
    (hFits : dest.length + (rfc4648 url src).length + 1 ≤ size) :
    ((encodeLoop url size src [] dest).bind fun r =>
      encodeTail url size r.1 r.2) = some (dest ++ rfc4648 url src) := by
  fun_induction rfc4648 url src generalizing dest with
  | case1 =>
    change (put size dest [0]).bind (fun _ => some dest) = _
    rw [put_of_le hFits, append_nil]
    rfl
  | case2 a n =>
    have hOut := outEncoded_eq url a 0 0
    rw [show (0 : Byte).toNat = 0 from rfl, Nat.zero_mul, Nat.add_zero] at hOut
    change encodeTail url size [a] dest = _
    exact encodeTail_spec url (i := 1) ⟨rfl, Nat.one_ne_zero⟩ hOut
      (by cases url <;> simpa using hFits)
  | case3 a b n =>
    have hOut := outEncoded_eq url a b 0
    rw [show (0 : Byte).toNat = 0 from rfl, Nat.add_zero] at hOut
    change encodeTail url size [a, b] dest = _
    exact encodeTail_spec url (i := 2) ⟨rfl, Nat.succ_ne_zero 1⟩ hOut
      (by cases url <;> simpa using hFits)
  | case4 a b c src n ih =>
    rw [length_append, ← Nat.add_assoc] at hFits
    change ((put size dest (outEncoded url a.toNat b.toNat
      c.toNat)).bind fun dest =>
        encodeLoop url size src [] dest).bind _ = _
    rw [outEncoded_eq, put_of_le (by
      simp only [length_map, length_cons, length_nil]
      simp only [length_cons, length_nil] at hFits
      omega), bind_some, ih, append_assoc]
    · rfl
    · rw [length_append]
      exact hFits

/- The encoders write the format. -/
theorem encode_eq (url : Bool) (src : List Byte) : encode url src = some (rfc4648 url src) := by
  have hLoop := encodeLoop_spec url
    ((src.length + 2) / 3 * 4 + 1) src [] (by
      rw [length_rfc4648]
      cases url
      · simp
      · simp
        omega)
  exact hLoop

---
-- What is Decoded
---

theorem table_spec (url : Bool) :
    ∀ d < 64, value url ((table url).getD d 0) = d ∧
      (table url).getD d 0 ≠ pad ∧ isBase64Char url ((table url).getD d 0).toNat := by
  cases url <;> set_option maxRecDepth 8000 in decide

theorem decoded_bits :
    ∀ d < 64, (d &&& 0x30) >>> 4 = d / 16 ∧
      (d &&& 0xf) <<< 4 = d % 16 * 16 ∧
      (d &&& 0x3c) >>> 2 = d / 4 ∧ (d &&& 0x3) <<< 6 = d % 4 * 64 := by
  decide

/- A character that is decoded -/
theorem decodeLoop_digit
    (url : Bool) (size n shift : Nat) (src inarr dest : List Byte) :
    decodeLoop url size (digit url n shift :: src) inarr dest =
      match inarr ++ [digit url n shift] with
      | [a, b, c, d] => do
        let dest ← put size dest (outDecoded (value url a)
          (value url b) (value url c) (value url d))
        decodeLoop url size src [] dest
      | inarr => decodeLoop url size src inarr dest := by
  rcases table_spec url (n / 2 ^ shift % 64) (Nat.mod_lt _ (by decide)) with ⟨-, hPad, hChar⟩
  rw [decodeLoop, digit, if_pos ⟨hPad, hChar⟩]

theorem value_digit (url : Bool) (n shift : Nat) :
    value url (digit url n shift) = n / 2 ^ shift % 64 :=
  (table_spec url _ (Nat.mod_lt _ (by decide))).1

/- The bytes that have these bits -/
theorem outDecoded_eq (url : Bool) (a b c : Byte) :
    let n := a.toNat * 65536 + b.toNat * 256 + c.toNat
    outDecoded (value url (digit url n 18))
      (value url (digit url n 12)) (value url (digit url n 6))
      (value url (digit url n 0)) = [a, b, c] := by
  intro n
  have hBits := fun i => decoded_bits (n / 2 ^ i % 64) (Nat.mod_lt _ (by decide))
  have hFirst : n / 2 ^ 18 % 64 * 4 + n / 2 ^ 12 % 64 / 16 = a.toNat := by
    omega
  have hSecond : n / 2 ^ 12 % 64 % 16 * 16 + n / 2 ^ 6 % 64 / 4 = b.toNat := by
    omega
  have hThird : n / 2 ^ 6 % 64 % 4 * 64 + n / 2 ^ 0 % 64 = c.toNat := by
    omega
  unfold outDecoded
  simp only [value_digit, map_cons, map_nil]
  rw [(hBits 12).1, (hBits 12).2.1, (hBits 6).2.2.1,
    (hBits 6).2.2.2, Nat.shiftLeft_eq, hFirst, hSecond, hThird]
  simp only [BitVec.ofNat_toNat, BitVec.setWidth_eq]

/- Padding, or the end -/
theorem decodeLoop_end
    (url : Bool) (size : Nat) (ps inarr dest : List Byte) :
    decodeLoop url size (if url then [] else pad :: ps) inarr dest = some (inarr, dest) := by
  cases url with
  | true => rfl
  | false =>
    rw [if_neg Bool.false_ne_true, decodeLoop, if_neg]
    exact fun hBoth => hBoth.1 rfl

theorem decodeTail_spec (url : Bool) {bs : List Byte} (hSome : inarr.length = i ∧ i ≠ 0)
    (hOut : (outDecoded (value url (inarr.getD 0 0))
      (value url (inarr.getD 1 0)) (value url (inarr.getD 2 0))
        (value url (inarr.getD 3 0))).take (i - 1) = bs)
    (hFits : dest.length + bs.length + 1 ≤ size) :
    decodeTail url size inarr dest = some (dest ++ bs) := by
  unfold decodeTail
  rw [hSome.1, if_neg hSome.2]
  dsimp only
  rw [hOut, put_of_le (by omega), bind_eq_bind, bind_some, put_of_le (by
      rw [length_append]
      exact hFits)]
  rfl

theorem decodeLoop_spec (url : Bool) (src dest : List Byte)
    (hFits : dest.length + src.length + 1 ≤ size) :
    ((decodeLoop url size (rfc4648 url src) [] dest).bind fun r =>
      decodeTail url size r.1 r.2) = some (dest ++ src) := by
  fun_induction rfc4648 url src generalizing dest with
  | case1 =>
    change (put size dest [0]).bind (fun _ => some dest) = _
    rw [put_of_le hFits, append_nil]
    rfl
  | case2 a n =>
    have hOut := outDecoded_eq url a 0 0
    rw [show (0 : Byte).toNat = 0 from rfl, Nat.zero_mul, Nat.add_zero] at hOut
    simp only [cons_append, nil_append, decodeLoop_digit, decodeLoop_end]
    change decodeTail url size [digit url n 18, digit url n 12]
      dest = some (dest ++ [a])
    refine decodeTail_spec url (i := 2) ⟨rfl, Nat.succ_ne_zero 1⟩ ?_ hFits
    simp only [outDecoded, map_cons, cons.injEq] at hOut
    simp only [outDecoded, map_cons, take_succ_cons, take_zero,
      Nat.reduceSub, getD_cons_zero, getD_cons_succ]
    rw [hOut.1]
  | case3 a b n =>
    have hOut := outDecoded_eq url a b 0
    rw [show (0 : Byte).toNat = 0 from rfl, Nat.add_zero] at hOut
    simp only [cons_append, nil_append, decodeLoop_digit, decodeLoop_end]
    change decodeTail url size [digit url n 18, digit url n 12,
      digit url n 6] dest = some (dest ++ [a, b])
    refine decodeTail_spec url (i := 3) ⟨rfl, Nat.succ_ne_zero 2⟩ ?_ hFits
    simp only [outDecoded, map_cons, cons.injEq] at hOut
    simp only [outDecoded, map_cons, take_succ_cons, take_zero,
      Nat.reduceSub, getD_cons_zero, getD_cons_succ]
    rw [hOut.1, hOut.2.1]
  | case4 a b c src n ih =>
    simp only [cons_append, nil_append, decodeLoop_digit]
    rw [outDecoded_eq, put_of_le (by
      simp only [length_cons, length_nil] at hFits ⊢
      omega)]
    change (decodeLoop _ _ _ _ _).bind _ = _
    rw [ih]
    · rw [append_assoc]
      rfl
    · simp only [length_append, length_cons, length_nil] at hFits ⊢
      omega

variable {src : List Byte}

/- What was encoded is decoded, if no `int` overflows. -/
theorem decode_rfc4648 {url : Bool}
    (hInt : (rfc4648 url src).length * 3 ≤ 2147483647) :
    decode url (rfc4648 url src) = some (some src) := by
  have hLength := length_rfc4648 url src
  have hFits : ([] : List Byte).length + src.length + 1 ≤ (rfc4648 url src).length * 3 / 4 + 1 := by
    rw [hLength, length_nil]
    cases url
    · simp only [Bool.false_eq_true, if_false]
      omega
    · simp only [if_true]
      omega
  have hLoop := decodeLoop_spec url src [] hFits
  unfold decode
  dsimp only
  rw [if_neg, if_neg (Nat.not_lt.mpr hInt)]
  · rcases bind_eq_some_iff.mp hLoop with ⟨r, hEnd, hTail⟩
    rw [hEnd, bind_eq_bind, bind_some, hTail]
    rfl
  · rintro ⟨rfl, hMod⟩
    rw [hLength] at hMod
    simp at hMod

---
-- Bounds
---

/- The groups before have three bytes for four characters. -/
theorem decodeLoop_bounds (url : Bool) {len q : Nat}
    (hDest : dest.length = 3 * q) (hGroup : inarr.length < 4)
    (hLen : 4 * q + inarr.length + src.length ≤ len) :
    ∃ inarr' dest', decodeLoop url (len * 3 / 4 + 1) src inarr dest =
        some (inarr', dest') ∧
      dest'.length + (inarr'.length - 1) + 1 ≤ len * 3 / 4 + 1 ∧ inarr'.length < 4 := by
  induction src generalizing q inarr dest with
  | nil =>
    rw [length_nil] at hLen
    exact ⟨inarr, dest, rfl, by omega, hGroup⟩
  | cons s src ih =>
    rw [length_cons] at hLen
    unfold decodeLoop
    split_ifs with hChar
    · rcases inarr with _ | ⟨a, _ | ⟨b, _ | ⟨c, _ | ⟨d, inarr⟩⟩⟩⟩
      · change ∃ inarr' dest', decodeLoop _ _ src [s] dest = _ ∧ _
        refine ih hDest (by simp) ?_
        simp only [length_cons, length_nil] at hLen ⊢
        omega
      · change ∃ inarr' dest', decodeLoop _ _ src [a, s] dest = _ ∧ _
        refine ih hDest (by simp) ?_
        simp only [length_cons, length_nil] at hLen ⊢
        omega
      · change ∃ inarr' dest', decodeLoop _ _ src [a, b, s] dest = _ ∧ _
        refine ih hDest (by simp) ?_
        simp only [length_cons, length_nil] at hLen ⊢
        omega
      · simp only [length_cons, length_nil] at hLen
        change ∃ inarr' dest', (put _ _ (outDecoded _ _ _ _)).bind
          (fun dest => decodeLoop _ _ src [] dest) = _ ∧ _
        rw [put_of_le (by
          simp only [outDecoded, length_map, length_cons, length_nil]
          omega), bind_some]
        refine ih (q := q + 1) ?_ (Nat.succ_pos 3) ?_
        · rw [length_append, hDest]
          rfl
        · rw [length_nil]
          omega
      · simp only [length_cons] at hGroup
        omega
    · exact ⟨inarr, dest, rfl, by omega, hGroup⟩

/- No write is beyond the block. -/
theorem decode_bounds (url : Bool)
    (hInt : src.length * 3 ≤ 2147483647) : decode url src ≠ none := by
  have hStart : 4 * 0 + ([] : List Byte).length + src.length ≤ src.length := by
    simp
  have hNil : ([] : List Byte).length < 4 := by
    decide
  have hZero : ([] : List Byte).length = 3 * 0 := rfl
  rcases decodeLoop_bounds url hZero hNil hStart with ⟨inarr, dest, hLoop, hFits, hGroup⟩
  unfold decode
  dsimp only
  split_ifs with hMod
  · exact some_ne_none _
  · omega
  · have hTail : ∃ dest', decodeTail url (src.length * 3 / 4 + 1) inarr dest = some dest' := by
      by_cases hNone : inarr.length = 0
      · unfold decodeTail
        rw [if_pos hNone]
        change ∃ dest', (put _ dest [0]).bind _ = some dest'
        rw [put_of_le (by
          rw [length_singleton]
          omega)]
        exact ⟨dest, rfl⟩
      · refine ⟨_, decodeTail_spec url ⟨rfl, hNone⟩ rfl ?_⟩
        simp only [outDecoded, length_take, length_map, length_cons, length_nil]
        omega
    rcases hTail with ⟨dest', hTail⟩
    rw [hLoop, bind_eq_bind, bind_some, hTail]
    exact some_ne_none _

theorem decode_overflow {url : Bool} (hMod : url = false → src.length % 4 = 0)
    (hInt : 2147483647 < src.length * 3) : decode url src = none := by
  unfold decode
  dsimp only
  rw [if_neg (fun hBoth => hBoth.2 (hMod hBoth.1)), if_pos hInt]

/-
  The encoders write the format, and the decoders read it back
  and stay in their block, as long as the size of the block
  does not overflow an `int`.
-/
theorem base64_iff (url : Bool) {b s : List Byte}
    (hBytes : (rfc4648 url b).length < 2 ^ 31)
    (hString : s.length < 2 ^ 31) :
    encode url b = some (rfc4648 url b) ∧
      ((encode url b).bind (decode url) = some (some b) ↔
        3 * (rfc4648 url b).length < 2 ^ 31) ∧
      (decode url s ≠ none ↔ (url = false ∧ s.length % 4 ≠ 0) ∨
        3 * s.length < 2 ^ 31) := by
  refine ⟨encode_eq url b, ?_, ?_⟩
  · rw [encode_eq, bind_some]
    constructor
    · intro hSame
      by_contra hLarge
      rw [decode_overflow _ (by omega)] at hSame
      · exact nomatch hSame
      · rintro rfl
        rw [length_rfc4648]
        simp
    · intro hInt
      exact decode_rfc4648 (by omega)
  · constructor
    · intro hSome
      by_contra hNot
      rw [not_or] at hNot
      refine hSome (decode_overflow (fun hUrl => ?_) (by omega))
      by_contra hMod
      exact hNot.1 ⟨hUrl, hMod⟩
    · rintro (⟨rfl, hMod⟩ | hInt)
      · unfold decode
        dsimp only
        rw [if_pos ⟨rfl, hMod⟩]
        exact some_ne_none _
      · exact decode_bounds url (by omega)

theorem base64_iff_sample :
    ((rfc4648 false [102, 111]).length < 2 ^ 31 ∧
      [90, 109, 56, 61].length < 2 ^ 31) ∧
    encode false [102, 111] = some (rfc4648 false [102, 111]) ∧
      ((encode false [102, 111]).bind (decode false) =
          some (some [102, 111]) ↔
        3 * (rfc4648 false [102, 111]).length < 2 ^ 31) ∧
      (decode false [90, 109, 56, 61] ≠ none ↔
        (false = false ∧ [90, 109, 56, 61].length % 4 ≠ 0) ∨
          3 * [90, 109, 56, 61].length < 2 ^ 31) :=
  ⟨⟨by decide, by decide⟩, base64_iff false (by decide) (by decide)⟩

/- 2^29 + 1 bytes are not read back. -/
theorem decode_loses :
    (rfc4648 false (List.replicate 536870913 0)).length < 2 ^ 31 ∧
      (encode false (List.replicate 536870913 0)).bind (decode false) ≠
        some (some (List.replicate 536870913 0)) := by
  have hLength :
      (rfc4648 false (List.replicate 536870913 0)).length =
        715827884 := by
    rw [length_rfc4648, length_replicate]
    rfl
  refine ⟨by omega, ?_⟩
  rw [encode_eq, bind_some,
    decode_overflow (fun _ => by rw [hLength]) (by omega)]
  exact nofun

end Efl.Base64
