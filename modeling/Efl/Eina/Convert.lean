import Mathlib.Data.List.DropRight
import Mathlib.Data.Nat.Log
import Mathlib.Tactic.Ring

/-
  Texts of fixed point numbers.

  The characters are of ASCII.  A read over the end of the
  text and a shift by 64 bits or more are `none`, as failed
  conversions are.

  Main declarations:
    * `fptoa`
    * `atod`, `atofp`
    * `normalise_spec`
    * `atofp_fptoa`
-/

---
-- Integers
---

namespace Efl.Convert

open List Option

def lookUpTable : List Char :=
  ['0', '1', '2', '3', '4', '5', '6', '7', '8', '9',
    'a', 'b', 'c', 'd', 'e', 'f']

/- The digits of the loop of `eina_convert_itoa`, from the last -/
def itoaLoop (n : Nat) : List Char :=
  lookUpTable.getD (n % 10) '0' ::
    if n / 10 = 0 then [] else itoaLoop (n / 10)
termination_by n

def itoa (n : Int) : List Char :=
  (if n < 0 then ['-'] else []) ++ (itoaLoop n.natAbs).reverse

/- `HEXA_TO_INT` -/
def hexaToInt (c : Char) : Int :=
  if 'a' ≤ c then (c.toNat : Int) - 'a'.toNat + 10
  else (c.toNat : Int) - '0'.toNat

/- What 64 bits of two's complement keep -/
def longLong (x : Int) : Int :=
  x.bmod 18446744073709551616

---
-- The Writer
---

/- The loop for numbers from one on -/
def halve (fp : Nat) (p : Int) : Nat × Int :=
  if fp < 0x100000000 then (fp, p) else halve (fp / 2) (p + 1)
termination_by fp

/- The loop for numbers below a half; it is not run on zero. -/
def double (fp : Nat) (p : Int) : Nat × Int :=
  if 0 < fp ∧ fp < 0x80000000 then double (fp * 2) (p - 1)
  else (fp, p)
termination_by 0x80000000 - fp

def scale (fp : Nat) : Nat × Int :=
  if 0x100000000 ≤ fp then halve fp 0
  else if fp < 0x80000000 then double fp 0
  else (fp, 0)

/- The number that is written, and its exponent -/
def normalise (fp : Nat) : Nat × Int :=
  let (fp, p) := scale fp
  if p = 0 then (fp, p) else (fp * 2, p - 1)

/- The loop over the digits after the point -/
def digits : Nat → Nat → List Char
  | 0, _ => []
  | n + 1, fp =>
    let fp := fp % 0x100000000 * 16
    lookUpTable.getD (fp / 0x100000000) '0' :: digits n fp

/- The zeros at the end go away, and then a point. -/
def strip (text : List Char) : List Char :=
  let text := text.rdropWhile (· = '0')
  if text.getLast? = some '.' then text.dropLast else text

/-
  `eina_convert_fptoa`: the text with its NUL, and the length
  that is returned.  The number is not `INT64_MIN`, which has
  no negation.
-/
def fptoa (fp : Int) : List Char × Int :=
  if fp = 0 then
    (['0', 'x', '0', 'p', '+', '0', '\x00'], 7)
  else
    let sign := if fp < 0 then ['-'] else []
    let (f, p) := normalise fp.natAbs
    let first := lookUpTable.getD (f / 0x100000000) '0'
    let mantissa :=
      strip (sign ++ ['0', 'x', first, '.'] ++ digits 16 f)
    let text := mantissa ++
      ['p', if p < 0 then '-' else '+'] ++ itoa p.natAbs
    (text ++ ['\x00'], text.length)

---
-- The Reader
---

/- The loop after the point: what is left, and the mantissa -/
def decimals : List Char → Int → Int → Nat → List Char × Int × Int × Nat
  | [], length, m, n => ([], length, m, n)
  | c :: str, length, m, n =>
    if 0 < length ∧ c ≠ 'p' then
      decimals str (length - 1)
        (longLong (longLong (m * 16) + hexaToInt c)) (n + 1)
    else
      (c :: str, length, m, n)

/- The loop over the exponent -/
def exponent : List Char → Int → Int → Int
  | [], _, e => e
  | c :: str, length, e =>
    if 0 < length ∧ c ≠ '\x00' then
      exponent str (length - 1)
        (longLong (longLong (e * 10) + (c.toNat - '0'.toNat)))
    else
      e

/- `eina_convert_atod`, the part from the `p` on -/
def atodExponent (str : List Char) (length : Int) : Option Int :=
  match str with
  | 'p' :: str =>
    if length - 1 ≤ 0 then none
    else match str with
      | '-' :: str => some (-exponent str (length - 2) 0)
      | '+' :: str => some (exponent str (length - 2) 0)
      -- `strchr` finds the NUL too.
      | '\x00' :: str => some (exponent str (length - 2) 0)
      | str => some (exponent str (length - 1) 0)
  | _ => none

/- `eina_convert_atod`, the part from the `0x` on -/
def atodUnsigned (sign : Int) (str : List Char) (length : Int) : Option (Int × Int) :=
  if length ≤ 2 then none
  else match str with
    | '0' :: 'x' :: c :: str =>
      if length - 3 ≤ 0 then none
      else do
        let (str, length, m, n) := match str with
          | '.' :: str => decimals str (length - 4) (hexaToInt c) 0
          | str => (str, length - 3, hexaToInt c, 0)
        let e ← atodExponent str length
        some (longLong (sign * m), e - n * 4)
    | _ => none

def atod (str : List Char) (length : Int) : Option (Int × Int) :=
  if length ≤ 0 then none
  else match str with
    | '-' :: str => atodUnsigned (-1) str (length - 1)
    | str => atodUnsigned 1 str length

def atofp (str : List Char) (length : Int) : Option Int := do
  let (m, e) ← atod str length
  let e := e + 32
  if 64 ≤ e.natAbs then none
  else if 0 < e then some (longLong (m * 2 ^ e.toNat))
  else some (m / 2 ^ (-e).toNat)

---
-- Characters
---

theorem hexaToInt_lookUpTable {d : Nat} (hDigit : d < 16) :
    hexaToInt (lookUpTable.getD d '0') = d ∧ lookUpTable.getD d '0' ≠ 'p' := by
  revert d
  decide

theorem decimal_lookUpTable {d : Nat} (hDigit : d < 10) :
    ((lookUpTable.getD d '0').toNat : Int) - '0'.toNat = d ∧ lookUpTable.getD d '0' ≠ '\x00' := by
  revert d
  decide

theorem longLong_of_range {x : Int} (hLow : -9223372036854775808 ≤ x)
    (hHigh : x < 9223372036854775808) : longLong x = x := Int.bmod_eq_of_le (by omega) (by omega)

---
-- What is Written
---

/- The number without the bits that the writer shifts out -/
def kept (a : Nat) : Nat :=
  a / 2 ^ (Nat.log 2 a - 31) * 2 ^ (Nat.log 2 a - 31)

theorem halve_eq (fp : Nat) (p : Int) :
    halve fp p = (fp / 2 ^ (Nat.log 2 fp - 31), p + (Nat.log 2 fp - 31 : Nat)) := by
  induction fp using Nat.strong_induction_on generalizing p with
  | h fp ih =>
    rw [halve]
    split
    case isTrue hSmall =>
      have hLog : Nat.log 2 fp < 32 := Nat.log_lt_of_lt_pow' (by decide) hSmall
      rw [show Nat.log 2 fp - 31 = 0 by omega]
      simp
    case isFalse hLarge =>
      have hLog : 32 ≤ Nat.log 2 fp := Nat.le_log_of_pow_le (by decide) (by omega)
      rw [ih (fp / 2) (by omega), Nat.log_div_base, Nat.div_div_eq_div_mul, ← Nat.pow_succ',
        show (Nat.log 2 fp - 1 - 31).succ = Nat.log 2 fp - 31 by omega]
      congr 1
      omega

theorem double_spec {fp : Nat} (p : Int) (hPos : 0 < fp)
    (hHigh : fp < 2 ^ 32) :
    ∃ j : Nat, double fp p = (fp * 2 ^ j, p - j) ∧ fp * 2 ^ j < 2 ^ 32 ∧ (fp < 2 ^ 31 → 0 < j) := by
  induction hLeft : 2 ^ 32 - fp using Nat.strong_induction_on generalizing fp p with
  | h n ih =>
    rw [double]
    split
    case isTrue hSmall =>
      rcases ih (2 ^ 32 - fp * 2) (by omega) (p - 1)
        (by omega) (by omega) rfl with ⟨j, hEq, hLess, -⟩
      refine ⟨j + 1, ?_, ?_, fun _ => Nat.succ_pos j⟩
      · rw [hEq, Nat.pow_succ', Nat.mul_assoc]
        congr 1
        omega
      · rwa [Nat.pow_succ', ← Nat.mul_assoc]
    case isFalse hLarge =>
      exact ⟨0, by simp, by omega, fun hSmall => by omega⟩

/- The number and the exponent give back what is kept. -/
theorem normalise_spec {a : Nat} (hPos : 0 < a) (hHigh : a < 2 ^ 63) :
    ∃ f u v : Nat, normalise a = (f, (u : Int) - v) ∧
      f * 2 ^ u = kept a * 2 ^ v ∧ f < 2 ^ 33 ∧ u ≤ 30 ∧ v ≤ 32 := by
  have hLess : a < 2 ^ (Nat.log 2 a + 1) := Nat.lt_pow_succ_log_self (by decide) a
  unfold normalise scale
  by_cases hLarge : 0x100000000 ≤ a
  · have hLog : 32 ≤ Nat.log 2 a := Nat.le_log_of_pow_le (by decide) hLarge
    have hTop : Nat.log 2 a < 63 := Nat.log_lt_of_lt_pow' (by decide) hHigh
    have hQuot : a / 2 ^ (Nat.log 2 a - 31) < 2 ^ 32 := by
      apply Nat.div_lt_of_lt_mul
      rwa [← Nat.pow_add,
        show Nat.log 2 a - 31 + 32 = Nat.log 2 a + 1 by omega]
    rw [if_pos hLarge, halve_eq]
    refine ⟨a / 2 ^ (Nat.log 2 a - 31) * 2,
      Nat.log 2 a - 32, 0, ?_, ?_, by omega, by omega, by omega⟩
    · dsimp only
      rw [if_neg (by omega)]
      congr 1
      omega
    · unfold kept
      rw [Nat.mul_assoc, ← Nat.pow_succ', Nat.pow_zero, Nat.mul_one,
        show (Nat.log 2 a - 32).succ = Nat.log 2 a - 31 by omega]
  · have hKept : kept a = a := by
      have hLog : Nat.log 2 a < 32 := Nat.log_lt_of_lt_pow' (by decide) (by omega)
      unfold kept
      rw [show Nat.log 2 a - 31 = 0 by omega]
      simp
    rw [if_neg hLarge, hKept]
    by_cases hSmall : a < 0x80000000
    · rcases double_spec 0 hPos (by omega) with ⟨j, hEq, hBound, hSome⟩
      have hPow : 2 ^ j < 2 ^ 32 := (Nat.le_mul_of_pos_left _ hPos).trans_lt hBound
      have hj : j < 32 := (Nat.pow_lt_pow_iff_right (by decide)).mp hPow
      rw [if_pos hSmall, hEq]
      refine ⟨a * 2 ^ j * 2, 0, j + 1, ?_, ?_, by omega, by omega, by omega⟩
      · dsimp only
        rw [if_neg (by omega)]
        congr 1
        omega
      · rw [Nat.pow_zero, Nat.mul_one, Nat.pow_succ, Nat.mul_assoc]
    · rw [if_neg hSmall]
      exact ⟨a, 0, 0, by simp, rfl, by omega, by omega, by omega⟩

---
-- What is Read
---

/- The number with these digits after it -/
def evalDigits (b : Int) (val : Char → Int) (m : Int) (ds : List Char) : Int :=
  ds.foldl (fun m c => m * b + val c) m

theorem evalDigits_cons (b : Int) (val : Char → Int) (m : Int)
    (c : Char) (ds : List Char) :
    evalDigits b val m (c :: ds) = evalDigits b val (m * b + val c) ds := rfl

theorem evalDigits_append (b : Int) (val : Char → Int) (m : Int)
    (ds ds' : List Char) :
    evalDigits b val m (ds ++ ds') =
      evalDigits b val (evalDigits b val m ds) ds' := foldl_append

variable {m : Int} {ds : List Char}

theorem le_evalDigits {b : Int} {val : Char → Int} (hBase : 1 ≤ b)
    (hPos : 0 ≤ m) (hDigits : ∀ c ∈ ds, 0 ≤ val c) : m ≤ evalDigits b val m ds := by
  induction ds generalizing m with
  | nil => exact le_refl m
  | cons c ds ih =>
    rw [forall_mem_cons] at hDigits
    have hGrow : m * 1 ≤ m * b := Int.mul_le_mul_of_nonneg_left hBase hPos
    have hRest := ih (m := m * b + val c) (by omega) hDigits.2
    exact Int.le_trans (by omega) hRest

theorem hex_spec : ∀ c ∈ lookUpTable, 0 ≤ hexaToInt c ∧ c ≠ 'p' ∧ c ≠ '.' := by
  simp [lookUpTable, hexaToInt]

variable {length : Int}

theorem decimals_append (hHex : ∀ c ∈ ds, c ∈ lookUpTable)
    (rest : List Char) (n : Nat) (hPos : 0 ≤ m) (hHigh : evalDigits 16 hexaToInt m ds < 2 ^ 63)
    (hLength : ds.length < length) :
    decimals (ds ++ 'p' :: rest) length m n =
      ('p' :: rest, length - ds.length, evalDigits 16 hexaToInt m ds, n + ds.length) := by
  induction ds generalizing length m n with
  | nil =>
    rw [nil_append, decimals, if_neg (by simp)]
    simp [evalDigits]
  | cons c ds ih =>
    rw [forall_mem_cons] at hHex
    rcases hex_spec c hHex.1 with ⟨hDigit, hNe, -⟩
    have hLe := le_evalDigits (b := 16) (m := m * 16 + hexaToInt c)
      (by decide) (by omega) fun x hx => (hex_spec x (hHex.2 x hx)).1
    rw [length_cons] at hLength ⊢
    rw [evalDigits_cons] at hHigh ⊢
    rw [cons_append, decimals, if_pos ⟨by omega, hNe⟩,
      longLong_of_range (x := m * 16) (by omega) (by omega),
      longLong_of_range (by omega) (by omega), ih hHex.2 (n + 1) (by omega) hHigh (by omega)]
    congr 2
    · omega
    · congr 1
      omega

theorem exponent_append {e : Int} (hDec : ∀ c ∈ ds, 0 ≤ (c.toNat : Int) - '0'.toNat ∧ c ≠ '\x00')
    (rest : List Char) (hPos : 0 ≤ e) (hHigh : evalDigits 10 (fun c =>
    c.toNat - '0'.toNat) e ds < 2 ^ 63) (hLength : ds.length ≤ length) :
    exponent (ds ++ rest) length e = exponent rest (length - ds.length)
      (evalDigits 10 (fun c => c.toNat - '0'.toNat) e ds) := by
  induction ds generalizing length e with
  | nil => simp [evalDigits]
  | cons c ds ih =>
    rw [forall_mem_cons] at hDec
    rcases hDec.1 with ⟨hDigit, hNe⟩
    have hLe := le_evalDigits (b := 10) (m := e * 10 + (c.toNat - '0'.toNat)) (by decide) (by omega)
      fun x hx => (hDec.2 x hx).1
    rw [length_cons] at hLength ⊢
    rw [evalDigits_cons] at hHigh ⊢
    rw [cons_append, exponent, if_pos ⟨by omega, hNe⟩,
      longLong_of_range (x := e * 10) (by omega) (by omega),
      longLong_of_range (by omega) (by omega), ih hDec.2 (by omega) hHigh (by omega)]
    congr 1
    omega

theorem evalDigits_itoaLoop (n : Nat) :
    evalDigits 10 (fun c => c.toNat - '0'.toNat) 0 (itoaLoop n).reverse = n := by
  induction n using Nat.strong_induction_on with
  | h n ih =>
    have hDigit := (decimal_lookUpTable (Nat.mod_lt n (show 10 > 0 by decide))).1
    rw [itoaLoop, reverse_cons, evalDigits_append, evalDigits_cons, hDigit]
    split
    case isTrue hSmall =>
      rw [reverse_nil]
      change (0 * 10 + (n % 10 : Nat) : Int) = n
      omega
    case isFalse =>
      rw [ih (n / 10) (by omega)]
      change ((n / 10 : Nat) * 10 + (n % 10 : Nat) : Int) = n
      omega

theorem itoaLoop_decimal (n : Nat) :
    ∀ c ∈ itoaLoop n, 0 ≤ (c.toNat : Int) - '0'.toNat ∧ c ≠ '\x00' := by
  induction n using Nat.strong_induction_on with
  | h n ih =>
    intro c hMem
    have hDigit := decimal_lookUpTable (Nat.mod_lt n (show 10 > 0 by decide))
    rw [itoaLoop, mem_cons] at hMem
    rcases hMem with rfl | hMem
    · exact ⟨by omega, hDigit.2⟩
    · split at hMem
      case isTrue => exact absurd hMem not_mem_nil
      case isFalse => exact ih (n / 10) (by omega) c hMem

/- The exponent is read back. -/
theorem exponent_itoa
    {n : Nat} (hHigh : n < 2 ^ 63) (rest : List Char) :
    exponent (itoa n ++ rest) (itoa n).length 0 = n := by
  have hDec : ∀ c ∈ (itoaLoop n).reverse, 0 ≤ (c.toNat : Int) - '0'.toNat ∧ c ≠ '\x00' :=
    fun c hMem => itoaLoop_decimal n c (mem_reverse.mp hMem)
  have hItoa : itoa n = (itoaLoop n).reverse := by
    unfold itoa
    rw [if_neg (by omega), nil_append, Int.natAbs_natCast]
  have hValue := evalDigits_itoaLoop n
  rw [hItoa, exponent_append hDec rest (le_refl 0)
    (by rw [hValue]; omega) (le_refl _), hValue, Int.sub_self]
  cases rest with
  | nil => rfl
  | cons c rest => rw [exponent, if_neg (by simp)]

---
-- Digits after the Point
---

theorem lookUpTable_mem {d : Nat} (hDigit : d < 16) : lookUpTable.getD d '0' ∈ lookUpTable := by
  revert d
  decide

theorem digits_hex (n f : Nat) : ∀ c ∈ digits n f, c ∈ lookUpTable := by
  induction n generalizing f with
  | zero => exact fun c hMem => absurd hMem not_mem_nil
  | succ n ih =>
    rw [digits, forall_mem_cons]
    exact ⟨lookUpTable_mem (by omega), ih _⟩

theorem digits_congr (n : Nat) {f g : Nat}
    (hSame : f % 0x100000000 = g % 0x100000000) : digits n f = digits n g := by
  cases n with
  | zero => rfl
  | succ n => rw [digits, digits, hSame]

theorem digits_add (a b f : Nat) : digits (a + b) f = digits a f ++ digits b (f * 16 ^ a) := by
  induction a generalizing f with
  | zero => simp [digits]
  | succ a ih =>
    rw [Nat.succ_add, digits, digits, ih, cons_append]
    congr 2
    apply digits_congr
    rw [Nat.pow_succ', Nat.mul_assoc, Nat.mod_mul_mod]

theorem digits_zero (n : Nat) {f : Nat} (hZero : f % 0x100000000 = 0) :
    digits n f = List.replicate n '0' := by
  induction n generalizing f with
  | zero => rfl
  | succ n ih =>
    rw [digits, hZero, ih (by decide), replicate_succ]
    rfl

theorem evalDigits_digits (n m f : Nat) :
    evalDigits 16 hexaToInt m (digits n f) * 0x100000000 +
        (f * 16 ^ n % 0x100000000 : Nat) =
      (m * 0x100000000 + f % 0x100000000 : Nat) * 16 ^ n := by
  induction n generalizing m f with
  | zero => simp [digits, evalDigits]
  | succ n ih =>
    have hDigit : f % 0x100000000 * 16 / 0x100000000 < 16 := by
      omega
    have hRest := ih (m * 16 + f % 0x100000000 * 16 / 0x100000000) (f % 0x100000000 * 16)
    rw [Nat.mul_assoc, Nat.mod_mul_mod, ← Nat.pow_succ',
      show (m * 16 + f % 0x100000000 * 16 / 0x100000000) *
          0x100000000 + f % 0x100000000 * 16 % 0x100000000 =
        (m * 0x100000000 + f % 0x100000000) * 16 by omega,
      Int.natCast_mul _ 16, Int.mul_assoc, Nat.cast_ofNat, ← Int.pow_succ'] at hRest
    rw [digits, evalDigits_cons, (hexaToInt_lookUpTable hDigit).1, ← hRest]
    rfl

theorem evalDigits_zeros (m : Int) (k : Nat) :
    evalDigits 16 hexaToInt m (List.replicate k '0') = m * 16 ^ k := by
  induction k generalizing m with
  | zero => simp [evalDigits]
  | succ k ih =>
    rw [replicate_succ, evalDigits_cons, ih,
      show hexaToInt '0' = 0 by decide]
    ring

theorem rdropWhile_zeros (l : List Char) (k : Nat) :
    (l ++ List.replicate k '0').rdropWhile (· = '0') = l.rdropWhile (· = '0') := by
  induction k with
  | zero => rw [replicate_zero, append_nil]
  | succ k ih =>
    rw [replicate_succ', ← append_assoc, rdropWhile_concat_pos _ _ _ (by decide), ih]

theorem rdropWhile_point (pre ds : List Char) :
    (pre ++ '.' :: ds).rdropWhile (· = '0') = pre ++ '.' :: ds.rdropWhile (· = '0') := by
  induction ds using List.reverseRecOn with
  | nil => rw [rdropWhile_concat_neg _ _ _ (by decide), rdropWhile_nil]
  | append_singleton ds c ih =>
    rw [← cons_append, ← append_assoc, rdropWhile_concat, rdropWhile_concat]
    split
    case isTrue => exact ih
    case isFalse => rw [append_assoc, cons_append]

/- The digits that stay have the same value. -/
theorem strip_spec (f : Nat) :
    ∃ ds : List Char, (∀ c ∈ ds, c ∈ lookUpTable) ∧ ds.length ≤ 8 ∧
      evalDigits 16 hexaToInt (f / 0x100000000 : Nat) ds * 16 ^
      (8 - ds.length) = f ∧ ∀ pre, strip (pre ++ '.' ::
      digits 16 f) = pre ++ if ds = [] then [] else '.' :: ds := by
  have hAll : digits 16 f = digits 8 f ++ List.replicate 8 '0' := by
    rw [show (16 : Nat) = 8 + 8 from rfl, digits_add, digits_zero 8 (f := f * 16 ^ 8) (by omega)]
  have hLength : (digits 8 f).length = 8 := by simp [digits]
  have hValue := evalDigits_digits 8 (f / 0x100000000) f
  have hSplit := rdropWhile_append_rtakeWhile
    (p := fun c : Char => decide (c = '0')) (l := digits 8 f)
  generalize hKeep : (digits 8 f).rdropWhile (· = '0') = ds at hSplit
  generalize hDrop : (digits 8 f).rtakeWhile (· = '0') = zs at hSplit
  have hZeros : zs = List.replicate (8 - ds.length) '0' := by
    rw [eq_replicate_iff]
    constructor
    · rw [← hLength, ← hSplit, length_append]
      omega
    · intro c hMem
      rw [← hDrop] at hMem
      simpa using mem_rtakeWhile_imp hMem
  have hHex : ∀ c ∈ ds, c ∈ lookUpTable := by
    intro c hMem
    apply digits_hex 8 f c
    rw [← hSplit]
    exact mem_append_left zs hMem
  refine ⟨ds, hHex, ?_, ?_, ?_⟩
  · rw [← hLength, ← hSplit, length_append]
    omega
  · rw [← evalDigits_zeros, ← hZeros, ← evalDigits_append, hSplit]
    omega
  · intro pre
    unfold strip
    rw [hAll, rdropWhile_point, rdropWhile_zeros, hKeep]
    dsimp only
    rcases eq_nil_or_concat ds with rfl | ⟨ds', c, rfl⟩
    · simp
    · have hNe := (hex_spec c (hHex c (by simp))).2.2
      rw [if_neg, if_neg (by simp)]
      rw [concat_eq_append, ← cons_append, ← append_assoc, getLast?_concat, some_inj]
      exact hNe

---
-- Round Trip
---

variable {p : Int}

theorem atodExponent_spec (hHigh : p.natAbs < 2 ^ 63) :
    atodExponent ('p' :: (if p < 0 then '-' else '+') :: (itoa p.natAbs ++ ['\x00']))
      ((itoa p.natAbs).length + 2) = some p := by
  have hRead := exponent_itoa hHigh ['\x00']
  have hMore : ¬ (((itoa p.natAbs).length : Int) + 2 - 1 ≤ 0) := by
    omega
  by_cases hNeg : p < 0
  · rw [if_pos hNeg, atodExponent, if_neg hMore, Int.add_sub_cancel, hRead]
    congr 1
    omega
  · rw [if_neg hNeg, atodExponent, if_neg hMore, Int.add_sub_cancel, hRead]
    congr 1
    omega

theorem atodUnsigned_spec (sign : Int) {f : Nat}
    (hFirst : f / 0x100000000 < 16) (hExp : p.natAbs < 2 ^ 63)
    (hHex : ∀ c ∈ ds, c ∈ lookUpTable) (hHigh :
    evalDigits 16 hexaToInt (f / 0x100000000 : Nat) ds < 2 ^ 63) :
    atodUnsigned sign ('0' :: 'x' :: lookUpTable.getD (f / 0x100000000)
      '0' :: ((if ds = [] then [] else '.' :: ds) ++ 'p' ::
      (if p < 0 then '-' else '+') :: (itoa p.natAbs ++ ['\x00'])))
      (3 + (if ds = [] then [] else '.' ::
      ds).length + ((itoa p.natAbs).length + 2)) =
      some (longLong (sign * evalDigits 16 hexaToInt (f / 0x100000000 :
        Nat) ds), p - ds.length * 4) := by
  have hValue := (hexaToInt_lookUpTable hFirst).1
  have hRest := atodExponent_spec hExp
  by_cases hNone : ds = []
  · subst hNone
    generalize (itoa p.natAbs).length = n at hRest ⊢
    have hTwo : ¬ ((3 : Int) + ([] : List Char).length + (n + 2) ≤ 2) := by
      simp only [length_nil]
      omega
    have hMore : ¬ ((3 : Int) + ([] : List Char).length + (n + 2) - 3 ≤ 0) := by
      simp only [length_nil]
      omega
    rw [if_pos rfl, nil_append, atodUnsigned, if_neg hTwo, if_neg hMore, hValue]
    · rw [show ((3 : Int) + ([] : List Char).length + (n + 2) - 3) =
        n + 2 by simp, hRest]
      rfl
    · simp
  · generalize (itoa p.natAbs).length = n at hRest ⊢
    have hTwo : ¬ ((3 : Int) + ('.' :: ds).length + (n + 2) ≤ 2) := by
      omega
    have hMore : ¬ ((3 : Int) + ('.' :: ds).length + (n + 2) - 3 ≤ 0) := by
      omega
    rw [if_neg hNone, cons_append, atodUnsigned, if_neg hTwo]
    dsimp only
    rw [if_neg hMore, hValue, decimals_append hHex _ 0 (by omega)
      hHigh (by
        rw [length_cons]
        omega)]
    dsimp only
    rw [show ((3 : Int) + ('.' :: ds).length + (n + 2) - 4 -
      ds.length) = n + 2 by
        rw [length_cons]
        omega, hRest, Nat.zero_add]
    rfl

/- A shift by the difference of two exponents -/
theorem shift_spec {kept : Int} {a b : Nat}
    (hSame : m * 2 ^ a = kept * 2 ^ b) :
    (b < a → m * 2 ^ (a - b) = kept) ∧ (a ≤ b → m / 2 ^ (b - a) = kept) := by
  constructor
  · intro hLess
    have hPos : (0 : Int) < 2 ^ b := Int.pow_pos (by decide)
    apply Int.eq_of_mul_eq_mul_right (Int.ne_of_gt hPos)
    rw [← hSame, Int.mul_assoc, ← Int.pow_add, Nat.sub_add_cancel (Nat.le_of_lt hLess)]
  · intro hLe
    have hPos : (0 : Int) < 2 ^ a := Int.pow_pos (by decide)
    have hMul : m = kept * 2 ^ (b - a) := by
      apply Int.eq_of_mul_eq_mul_right (Int.ne_of_gt hPos)
      rw [hSame, Int.mul_assoc, ← Int.pow_add, Nat.sub_add_cancel hLe]
    rw [hMul, Int.mul_ediv_cancel _ (Int.ne_of_gt (Int.pow_pos (by decide)))]

theorem kept_le (a : Nat) : kept a ≤ a := Nat.div_mul_le_self a _

theorem atofp_of_atod {str : List Char} {kept : Int} {n u v : Nat}
    (hRead : atod str length = some (m, (u : Int) - v - n * 4))
    (hDigits : n ≤ 8) (hHigh : u ≤ 30 ∧ v ≤ 32) (hSame : m * 2 ^ (u + 32) = kept * 2 ^ (v + n * 4))
    (hRange : kept.natAbs < 2 ^ 63) : atofp str length = some kept := by
  have hShift := shift_spec hSame
  rw [atofp, hRead, bind_eq_bind, bind_some]
  dsimp only
  rw [if_neg (by omega)]
  split_ifs with hUp
  · rw [show ((u : Int) - v - n * 4 + 32).toNat = u + 32 - (v + n * 4) by omega,
      hShift.1 (by omega), longLong_of_range (by omega) (by omega)]
  · rw [show (-((u : Int) - v - n * 4 + 32)).toNat = v +
        n * 4 - (u + 32) by omega, hShift.2 (by omega)]

/- The text of a number that is not zero -/
theorem fptoa_eq {fp : Int} {f : Nat} (hNe : fp ≠ 0) (hNorm : normalise fp.natAbs = (f, p))
    (hStrip : ∀ pre, strip (pre ++ '.' :: digits 16 f) =
      pre ++ if ds = [] then [] else '.' :: ds) :
    fptoa fp = ((if fp < 0 then ['-'] else []) ++ '0' :: 'x' ::
      lookUpTable.getD (f / 0x100000000) '0' ::
      ((if ds = [] then [] else '.' :: ds) ++ 'p' :: (if p < 0 then '-'
      else '+') :: (itoa p.natAbs ++ ['\x00'])), (if fp < 0 then (1 :
      Int) else 0) + (3 + ((if ds = [] then [] else '.' :: ds).length :
      Int) + (((itoa p.natAbs).length : Int) + 2))) := by
  have hText : strip ((if fp < 0 then ['-'] else []) ++ ['0', 'x',
      lookUpTable.getD (f / 0x100000000) '0', '.'] ++ digits 16 f) =
      ((if fp < 0 then ['-'] else []) ++ ['0', 'x', lookUpTable.getD (f / 0x100000000) '0']) ++
          if ds = [] then [] else '.' :: ds := by
    rw [← hStrip]
    simp only [append_assoc, cons_append, nil_append]
  unfold fptoa
  rw [if_neg hNe, hNorm]
  dsimp only
  rw [hText]
  generalize (if ds = [] then [] else '.' :: ds) = rest
  generalize itoa p.natAbs = e
  congr 1
  · simp only [append_assoc, cons_append, nil_append]
  · by_cases hNeg : fp < 0
    · rw [if_pos hNeg, if_pos hNeg]
      simp
      omega
    · rw [if_neg hNeg, if_neg hNeg]
      simp
      omega

/- What is read are the bits that the writer keeps. -/
theorem atofp_fptoa {fp : Int} (hRange : fp.natAbs < 2 ^ 63) :
    atofp (fptoa fp).1 (fptoa fp).2 = some (fp.sign * kept fp.natAbs) := by
  by_cases hZero : fp = 0
  · subst hZero
    decide
  · rcases normalise_spec (a := fp.natAbs) (by omega) hRange with
      ⟨f, u, v, hNorm, hKept, hBound, hExp⟩
    rcases strip_spec f with ⟨ds, hHex, hLength, hValue, hStrip⟩
    have hPow : (16 : Int) ^ (8 - ds.length) * 2 ^ (ds.length * 4) = 2 ^ 32 := by
      rw [show (16 : Int) = 2 ^ 4 from rfl, ← Int.pow_mul, ← Int.pow_add]
      congr 1
      omega
    have hLe := kept_le fp.natAbs
    have hSame : evalDigits 16 hexaToInt (f / 0x100000000 : Nat) ds *
        2 ^ (u + 32) = (kept fp.natAbs : Int) * 2 ^ (v + ds.length * 4) := by
      calc
        _ = evalDigits 16 hexaToInt (f / 0x100000000 : Nat) ds *
            16 ^ (8 - ds.length) * 2 ^ (ds.length * 4) * 2 ^ u := by
          rw [Int.mul_assoc _ (16 ^ _), hPow]
          ring
        _ = (f * 2 ^ u : Nat) * 2 ^ (ds.length * 4) := by
          rw [hValue]
          push_cast
          ring
        _ = _ := by
          rw [hKept]
          push_cast
          ring
    have hPos := le_evalDigits (b := 16) (m := (f / 0x100000000 : Nat))
      (by decide) (by omega) fun c hMem => (hex_spec c (hHex c hMem)).1
    generalize hM : evalDigits 16 hexaToInt (f / 0x100000000 : Nat) ds = m at hSame hPos hValue
    have hSmall : m ≤ f := by
      rw [← hValue]
      have hOne : (1 : Int) ≤ 16 ^ (8 - ds.length) := Int.pow_pos (by decide)
      have hMul := Int.mul_le_mul_of_nonneg_left hOne (show 0 ≤ m by omega)
      omega
    have hRead := fun sign =>
      atodUnsigned_spec sign (f := f) (p := (u : Int) - v) (by omega) (by omega) hHex (by omega)
    rw [hM] at hRead
    rw [fptoa_eq hZero hNorm hStrip]
    by_cases hNeg : fp < 0
    · rw [if_pos hNeg, if_pos hNeg, Int.sign_eq_neg_one_of_neg hNeg]
      refine atofp_of_atod (m := -1 * m) ?_ hLength hExp ?_ (by omega)
      · rw [singleton_append, atod, if_neg (by omega),
          add_sub_cancel_left, hRead, longLong_of_range (by omega) (by omega)]
      · rw [Int.mul_assoc, Int.mul_assoc, hSame]
    · rw [if_neg hNeg, if_neg hNeg, Int.sign_eq_one_of_pos (by omega)]
      refine atofp_of_atod (m := 1 * m) ?_ hLength hExp ?_ (by omega)
      · rw [nil_append, Int.zero_add, atod, if_neg (by omega)]
        · exact (hRead 1).trans (by rw [longLong_of_range (by omega) (by omega)])
        · simp
      · rw [Int.mul_assoc, Int.mul_assoc, hSame]

/-
  The number is read back if no bit is shifted out: below
  its 32 highest bits there are only zeros.
-/
theorem atofp_fptoa_iff {fp : Int} (hRange : fp.natAbs < 2 ^ 63) :
    atofp (fptoa fp).1 (fptoa fp).2 = some fp ↔
      2 ^ (Nat.log 2 fp.natAbs - 31) ∣ fp.natAbs := by
  have hKept : kept fp.natAbs = fp.natAbs ↔
      2 ^ (Nat.log 2 fp.natAbs - 31) ∣ fp.natAbs :=
    ⟨fun hSame => Dvd.intro_left _ hSame, Nat.div_mul_cancel⟩
  rw [atofp_fptoa hRange, some_inj, ← hKept]
  rcases lt_trichotomy fp 0 with hNeg | rfl | hPos
  · rw [Int.sign_eq_neg_one_of_neg hNeg]
    omega
  · simp [kept]
  · rw [Int.sign_eq_one_of_pos hPos]
    omega

theorem atofp_fptoa_iff_sample :
    (-6442450944 : Int).natAbs < 2 ^ 63 ∧
      (atofp (fptoa (-6442450944)).1 (fptoa (-6442450944)).2 =
        some (-6442450944) ↔
          2 ^ (Nat.log 2 (-6442450944 : Int).natAbs - 31) ∣
            (-6442450944 : Int).natAbs) :=
  ⟨by decide, atofp_fptoa_iff (by decide)⟩

/- The last bit of a number above one -/
theorem atofp_fptoa_loses :
    atofp (fptoa 4294967297).1 (fptoa 4294967297).2 ≠
      some 4294967297 := by
  have hLog : Nat.log 2 4294967297 = 32 :=
    Nat.log_eq_of_pow_le_of_lt_pow (by decide) (by decide)
  rw [atofp_fptoa (by decide), kept]
  change some (1 * ((4294967297 / 2 ^ (Nat.log 2 4294967297 - 31) *
    2 ^ (Nat.log 2 4294967297 - 31) : Nat) : Int)) ≠ _
  rw [hLog]
  decide

end Efl.Convert
