import Efl.Lib.Bytes
import Mathlib.Data.List.Infix
import Mathlib.Data.List.TakeWhile

/-
  C strings in memory, and what is found in them.

  A search that runs over the end of the memory is `none`.

  Main declarations:
    * `CStr.text`, `CStr.beyond`
    * `CStr.strlen`, `CStr.strstr`
    * `CStr.strstrFrom_text`
    * `CStr.occurrences_drop`
-/

---
-- Text
---

namespace Efl.CStr

open Bytes List

/- The bytes before the first NUL, and the others. -/
def text (l : List Byte) : List Byte :=
  l.takeWhile (· ≠ 0)

def beyond (l : List Byte) : List Byte :=
  l.dropWhile (· ≠ 0)

theorem text_append_beyond (l : List Byte) : text l ++ beyond l = l := takeWhile_append_dropWhile

theorem text_cons (c : Byte) (cs : List Byte) :
    text (c :: cs) = if c = 0 then [] else c :: text cs := by
  unfold text
  rw [takeWhile_cons]
  by_cases hZero : c = 0
  · subst hZero
    rfl
  · rw [if_pos (decide_eq_true hZero), if_neg hZero]

theorem beyond_cons (c : Byte) (cs : List Byte) :
    beyond (c :: cs) = if c = 0 then c :: cs else beyond cs := by
  unfold beyond
  rw [dropWhile_cons]
  by_cases hZero : c = 0
  · subst hZero
    rfl
  · rw [if_pos (decide_eq_true hZero), if_neg hZero]

theorem text_of_noNul {l : List Byte} (hNoNul : 0 ∉ l) : text l = l := by
  unfold text
  rw [takeWhile_eq_self_iff]
  intro b hMem
  rw [decide_eq_true_iff]
  rintro rfl
  exact hNoNul hMem

theorem zero_notMem_text (l : List Byte) : 0 ∉ text l := by
  induction l with
  | nil => exact not_mem_nil
  | cons c cs ih =>
    rw [text_cons]
    split
    case isTrue => exact not_mem_nil
    case isFalse hNe =>
      rw [mem_cons, not_or]
      exact ⟨Ne.symm hNe, ih⟩

/- The other bytes start with a NUL, if there are any. -/
theorem beyond_cases (l : List Byte) : beyond l = [] ∨ ∃ t, beyond l = 0 :: t := by
  induction l with
  | nil => exact Or.inl rfl
  | cons c cs ih =>
    rw [beyond_cons]
    split
    case isTrue hZero => exact Or.inr ⟨cs, by rw [hZero]⟩
    case isFalse => exact ih

variable {m : List Byte}

/- The text of a part from the start is a part of the text. -/
theorem text_start {l : List Byte} (hPrefix : l <+: m) : text l <+: text m := by
  induction l generalizing m with
  | nil => exact List.nil_prefix
  | cons c cs ih =>
    rcases hPrefix with ⟨rest, rfl⟩
    rw [cons_append, text_cons, text_cons]
    split
    case isTrue => exact List.nil_prefix
    case isFalse =>
      rw [cons_prefix_cons]
      exact ⟨rfl, ih (prefix_append cs rest)⟩

/- A terminated memory starts with the text and a NUL. -/
theorem terminated_text (l rest : List Byte) :
    ∃ t, l ++ 0 :: rest = text l ++ 0 :: t ∧ beyond l ++ 0 :: rest = 0 :: t := by
  have hSplit := text_append_beyond l
  rcases beyond_cases l with hNil | ⟨t, hCons⟩
  · refine ⟨rest, ?_, ?_⟩
    · conv_lhs => rw [← hSplit, hNil, append_nil]
    · rw [hNil, nil_append]
  · refine ⟨t ++ 0 :: rest, ?_, ?_⟩
    · conv_lhs => rw [← hSplit, hCons, append_assoc]
      rfl
    · rw [hCons]
      rfl

---
-- Searches
---

/- `strlen` of what is at the start of the memory -/
def strlen : List Byte → Option Nat
  | [] => none
  | c :: cs => if c = 0 then some 0 else (strlen cs).map (· + 1)

/- `strstr` of memory that starts at position `i` -/
def strstrFrom (str : List Byte) : List Byte → Nat → Option (Option Nat)
  | [], _ => none
  | c :: cs, i =>
    if str.isPrefixOf (c :: cs) then
      some (some i)
    else if c = 0 then
      some none
    else
      strstrFrom str cs (i + 1)

/- `strstr (m + pos, str)`, as a position in the memory -/
def strstr (m : List Byte) (pos : Nat) (str : List Byte) : Option (Option Nat) :=
  strstrFrom str (m.drop pos) pos

/- Where a string occurs in a text that starts at `i`. -/
def occurrences (str : List Byte) : List Byte → Nat → List Nat
  | [], _ => []
  | c :: cs, i =>
    if str.isPrefixOf (c :: cs) then
      i :: occurrences str cs (i + 1)
    else
      occurrences str cs (i + 1)

variable {s : List Byte}

theorem strlen_text (t : List Byte) (hNoNul : 0 ∉ s) : strlen (s ++ 0 :: t) = some s.length := by
  induction s with
  | nil => rfl
  | cons c cs ih =>
    rw [mem_cons, not_or] at hNoNul
    unfold strlen
    rw [cons_append]
    dsimp only
    rw [if_neg (Ne.symm hNoNul.1), ih hNoNul.2]
    rfl

variable {str : List Byte}

/- A string without NUL is found before the NUL only. -/
theorem isPrefixOf_text (t : List Byte) (hStr : 0 ∉ str) :
    str.isPrefixOf (s ++ 0 :: t) = str.isPrefixOf s := by
  induction str generalizing s with
  | nil => simp
  | cons a as ih =>
    rw [mem_cons, not_or] at hStr
    cases s with
    | nil =>
      have hNe : (a == 0) = false := beq_eq_false_iff_ne.mpr (Ne.symm hStr.1)
      change (a == 0 && as.isPrefixOf t) = false
      rw [hNe]
      rfl
    | cons c cs =>
      rw [cons_append, List.isPrefixOf, List.isPrefixOf, ih hStr.2]

/- The search finds the first occurrence. -/
theorem strstrFrom_text (t : List Byte) (hStr : 0 ∉ str)
    (hNonempty : str ≠ []) (hNoNul : 0 ∉ s) (i : Nat) :
    strstrFrom str (s ++ 0 :: t) i = some (occurrences str s i).head? := by
  induction s generalizing i with
  | nil =>
    have hPrefix : str.isPrefixOf (0 :: t) = false := by
      rw [show (0 :: t) = [] ++ 0 :: t from rfl, isPrefixOf_text t hStr]
      cases str with
      | nil => exact absurd rfl hNonempty
      | cons a as => rfl
    rw [nil_append, strstrFrom, hPrefix]
    rfl
  | cons c cs ih =>
    rw [mem_cons, not_or] at hNoNul
    rw [cons_append, strstrFrom, ← cons_append, isPrefixOf_text t hStr, occurrences]
    split
    case isTrue => rfl
    case isFalse => rw [if_neg (Ne.symm hNoNul.1), ih hNoNul.2]

/- Occurrences are inside of the text. -/
theorem mem_occurrences {i p : Nat} (hMem : p ∈ occurrences str s i) :
    i ≤ p ∧ p < i + s.length ∧ str <+: s.drop (p - i) := by
  induction s generalizing i with
  | nil => exact nomatch hMem
  | cons c cs ih =>
    have hLater : p ∈ occurrences str cs (i + 1) →
        i ≤ p ∧ p < i + (c :: cs).length ∧ str <+: (c :: cs).drop (p - i) := by
      intro hRest
      rcases ih hRest with ⟨hLow, hHigh, hPrefix⟩
      have hDrop : (c :: cs).drop (p - i) = cs.drop (p - (i + 1)) := by
        rw [show p - i = p - (i + 1) + 1 by omega]
        rfl
      rw [length_cons, hDrop]
      exact ⟨by omega, by omega, hPrefix⟩
    rw [occurrences] at hMem
    split at hMem
    case isTrue hPrefix =>
      rcases mem_cons.mp hMem with rfl | hRest
      · rw [Nat.sub_self, length_cons]
        exact ⟨le_rfl, by omega, isPrefixOf_iff_prefix.mp hPrefix⟩
      · exact hLater hRest
    case isFalse => exact hLater hMem

/- The same, for the search from a position of the text on. -/
theorem strstr_text (t : List Byte) {pos : Nat} (hStr : 0 ∉ str)
    (hNonempty : str ≠ []) (hNoNul : 0 ∉ s) (hPos : pos ≤ s.length) :
    strstr (s ++ 0 :: t) pos str = some (occurrences str (s.drop pos) pos).head? := by
  unfold strstr
  rw [drop_append_of_le_length hPos]
  apply strstrFrom_text t hStr hNonempty
  intro hMem
  exact hNoNul (mem_of_mem_drop hMem)

/- An occurrence ends in the text. -/
theorem occurrence_end {pos p : Nat} (hPos : pos ≤ s.length)
    (hMem : p ∈ occurrences str (s.drop pos) pos) :
    pos ≤ p ∧ p < s.length ∧ p + str.length ≤ s.length := by
  rcases mem_occurrences hMem with ⟨hLow, hHigh, hPrefix⟩
  have hLength := hPrefix.length_le
  simp only [length_drop] at hHigh hLength
  exact ⟨hLow, by omega, by omega⟩

/- The occurrences behind the first one. -/
theorem occurrences_drop {i p : Nat} {ps : List Nat}
    (hFirst : occurrences str s i = p :: ps) :
    occurrences str (s.drop (p + 1 - i)) (p + 1) = ps := by
  induction s generalizing i with
  | nil => exact nomatch hFirst
  | cons c cs ih =>
    rw [occurrences] at hFirst
    split at hFirst
    case isTrue =>
      obtain ⟨rfl, rfl⟩ := List.cons.inj hFirst
      rw [Nat.add_sub_cancel_left]
      rfl
    case isFalse =>
      have hMem : p ∈ occurrences str cs (i + 1) := by
        rw [hFirst]
        exact mem_cons_self
      have hLow := (mem_occurrences hMem).1
      rw [show p + 1 - i = p + 1 - (i + 1) + 1 by omega]
      exact ih hFirst

/- A search that finds nothing ends at a NUL. -/
theorem zero_mem_of_strstrFrom {i : Nat} (hNone : strstrFrom str m i = some none) : 0 ∈ m := by
  induction m generalizing i with
  | nil => exact nomatch hNone
  | cons c cs ih =>
    rw [strstrFrom] at hNone
    split at hNone
    case isTrue => exact nomatch hNone
    case isFalse =>
      split at hNone
      case isTrue hZero => exact hZero ▸ mem_cons_self
      case isFalse => exact mem_cons_of_mem c (ih hNone)

/- Memory with a NUL is its text and the NUL. -/
theorem text_of_zero_mem (hMem : 0 ∈ m) : ∃ t, m = text m ++ 0 :: t := by
  rcases beyond_cases m with hNil | ⟨t, hCons⟩
  · have hSplit := text_append_beyond m
    rw [hNil, append_nil] at hSplit
    rw [← hSplit] at hMem
    exact absurd hMem (zero_notMem_text m)
  · refine ⟨t, ?_⟩
    rw [← hCons, text_append_beyond]

/- A text has the first occurrences of a longer one. -/
theorem occurrences_prefix {s' : List Byte} (hPrefix : s <+: s')
    (i : Nat) : occurrences str s i <+: occurrences str s' i := by
  induction s generalizing s' i with
  | nil => exact List.nil_prefix
  | cons c cs ih =>
    rcases hPrefix with ⟨rest, rfl⟩
    rw [cons_append, occurrences, occurrences]
    have hRest := ih (prefix_append cs rest) (i + 1)
    by_cases hHere : str.isPrefixOf (c :: cs) = true
    · have hHere' : str.isPrefixOf (c :: (cs ++ rest)) = true := by
        rw [List.isPrefixOf_iff_prefix] at hHere ⊢
        exact hHere.trans (prefix_append (c :: cs) rest)
      rw [if_pos hHere, if_pos hHere', cons_prefix_cons]
      exact ⟨rfl, hRest⟩
    · rw [if_neg hHere]
      split
      case isFalse => exact hRest
      case isTrue hCross =>
        -- The string is longer than what is left of the text.
        have hNone : occurrences str cs (i + 1) = [] := by
          rw [eq_nil_iff_forall_not_mem]
          intro p hMem
          have hLength := (mem_occurrences hMem).2.2.length_le
          rw [length_drop] at hLength
          rw [List.isPrefixOf_iff_prefix] at hHere hCross
          apply hHere
          apply prefix_of_prefix_length_le hCross (prefix_append (c :: cs) rest)
          rw [length_cons]
          omega
        rw [hNone]
        exact List.nil_prefix

---
-- Replacements
---

/- The n-th occurrence, from 1 on, is replaced. -/
def replaceNth (str new : List Byte) (n : Nat) (s : List Byte) : Option (List Byte) :=
  match n with
  | 0 => none
  | n + 1 =>
    (occurrences str s 0)[n]?.map fun p =>
      s.take p ++ (new ++ s.drop (p + str.length))

/- All occurrences are replaced, behind `k` bytes. -/
def replaceFrom (str new : List Byte) : Nat → List Byte → List Byte
  | _, [] => []
  | k + 1, _ :: cs => replaceFrom str new k cs
  | 0, c :: cs =>
    if str.isPrefixOf (c :: cs) then
      new ++ replaceFrom str new (str.length - 1) cs
    else
      c :: replaceFrom str new 0 cs

/- All occurrences that do not overlap, from the left. -/
def replaceAll (str new s : List Byte) : List Byte :=
  replaceFrom str new 0 s

theorem replaceFrom_eq (str new : List Byte) (k : Nat) (s : List Byte) :
    replaceFrom str new k s = replaceAll str new (s.drop k) := by
  induction s generalizing k with
  | nil =>
    rw [drop_nil]
    cases k with
    | zero => rfl
    | succ k => rfl
  | cons c cs ih =>
    cases k with
    | zero => rfl
    | succ k => exact ih k

theorem replaceAll_of_nil {i : Nat} (new : List Byte)
    (hNone : occurrences str s i = []) : replaceAll str new s = s := by
  induction s generalizing i with
  | nil => rfl
  | cons c cs ih =>
    rw [occurrences] at hNone
    split at hNone
    case isTrue => exact nomatch hNone
    case isFalse hPrefix =>
      unfold replaceAll replaceFrom
      rw [if_neg hPrefix]
      exact congrArg (c :: ·) (ih hNone)

/- The first occurrence is replaced, and then the others. -/
theorem replaceAll_of_find {i p : Nat} {ps : List Nat} (new : List Byte) (hNonempty : str ≠ [])
    (hFirst : occurrences str s i = p :: ps) :
    replaceAll str new s = s.take (p - i) ++
      (new ++ replaceAll str new (s.drop (p - i + str.length))) := by
  induction s generalizing i with
  | nil => exact nomatch hFirst
  | cons c cs ih =>
    have hPos := length_pos_iff.mpr hNonempty
    rw [occurrences] at hFirst
    split at hFirst
    case isTrue hPrefix =>
      obtain ⟨rfl, -⟩ := List.cons.inj hFirst
      have hDrop : (c :: cs).drop (0 + str.length) = cs.drop (str.length - 1) := by
        rw [show 0 + str.length = str.length - 1 + 1 by omega]
        rfl
      conv_lhs => unfold replaceAll replaceFrom
      rw [if_pos hPrefix, replaceFrom_eq, Nat.sub_self, hDrop]
      rfl
    case isFalse hPrefix =>
      have hMem : p ∈ occurrences str cs (i + 1) := by
        rw [hFirst]
        exact mem_cons_self
      have hLow := (mem_occurrences hMem).1
      have hShift : p - i = p - (i + 1) + 1 := by omega
      have hDrop : (c :: cs).drop (p - i + str.length) = cs.drop (p - (i + 1) + str.length) := by
        rw [show p - i + str.length = p - (i + 1) + str.length + 1 by omega]
        rfl
      conv_lhs => unfold replaceAll replaceFrom
      rw [if_neg hPrefix, hDrop, hShift, take_succ_cons, cons_append, ← ih hFirst]
      rfl

/- Longer strings do not make the text shorter. -/
theorem length_le_replaceFrom {new : List Byte} (hNonempty : str ≠ [])
    (hLe : str.length ≤ new.length) (k : Nat) (s : List Byte) :
    s.length ≤ (replaceFrom str new k s).length + k := by
  have hPos := length_pos_iff.mpr hNonempty
  induction s generalizing k with
  | nil => exact Nat.zero_le _
  | cons c cs ih =>
    cases k with
    | succ k =>
      have hRest := ih k
      rw [replaceFrom, length_cons]
      omega
    | zero =>
      rw [replaceFrom, length_cons]
      split
      case isTrue =>
        have hRest := ih (str.length - 1)
        rw [length_append]
        omega
      case isFalse =>
        have hRest := ih 0
        rw [length_cons]
        omega

/- Strings of the same length keep the length of the text. -/
theorem length_replaceFrom {new : List Byte} (hNonempty : str ≠ [])
    (hSame : new.length = str.length) {k : Nat} (hSkip : k ≤ s.length) :
    (replaceFrom str new k s).length + k = s.length := by
  have hPos := length_pos_iff.mpr hNonempty
  induction s generalizing k with
  | nil =>
    have hZero : k = 0 := Nat.le_zero.mp hSkip
    rw [hZero]
    rfl
  | cons c cs ih =>
    rw [length_cons] at hSkip
    cases k with
    | succ k =>
      have hRest := ih (show k ≤ cs.length by omega)
      rw [replaceFrom, length_cons]
      omega
    | zero =>
      rw [replaceFrom, length_cons]
      split
      case isTrue hPrefix =>
        have hLe := (List.isPrefixOf_iff_prefix.mp hPrefix).length_le
        rw [length_cons] at hLe
        have hRest := ih (show str.length - 1 ≤ cs.length by omega)
        rw [length_append]
        omega
      case isFalse =>
        have hRest := ih (Nat.zero_le _)
        rw [length_cons]
        omega

end Efl.CStr
