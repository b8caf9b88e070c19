import Efl.Eina.SimpleXml.Tokens
import Efl.Eina.SimpleXml.Tree

/-
  What the scans of the parser find in bytes that are known.

  Main declarations:
    * `Has`
    * `quoteState`
    * `scanFor_of`, `whitespaceSkip_of`
    * `tagEndFind_of`, `commentEnd_of`
-/

---
-- Bytes at a Position
---

namespace Efl.Eina.SimpleXml

open Bytes List Option

/- The buffer has these bytes at this position. -/
def Has (buf : List Byte) (i : Nat) (s : List Byte) : Prop :=
  ∃ before behind, before ++ s ++ behind = buf ∧
    before.length = i

theorem Has.whole (buf : List Byte) : Has buf 0 buf := ⟨[], [], append_nil _, rfl⟩

variable {buf s : List Byte} {i : Nat}

theorem Has.length_le (hHas : Has buf i s) : i + s.length ≤ buf.length := by
  rcases hHas with ⟨before, behind, rfl, rfl⟩
  rw [length_append, length_append]
  omega

theorem Has.left {t : List Byte} (hHas : Has buf i (s ++ t)) : Has buf i s := by
  rcases hHas with ⟨before, behind, rfl, hLength⟩
  exact ⟨before, t ++ behind, by simp only [append_assoc], hLength⟩

theorem Has.right {t : List Byte} (hHas : Has buf i (s ++ t)) : Has buf (i + s.length) t := by
  rcases hHas with ⟨before, behind, rfl, rfl⟩
  exact ⟨before ++ s, behind, by simp only [append_assoc], length_append⟩

variable {k : Nat}

section

variable (hHas : Has buf i s)

include hHas

theorem Has.get (hLess : k < s.length) : buf[i + k]? = s[k]? := by
  rcases hHas with ⟨before, behind, rfl, rfl⟩
  rw [append_assoc, getElem?_append_right (Nat.le_add_right _ _),
    Nat.add_sub_cancel_left, getElem?_append_left hLess]

theorem Has.charAt (hLess : k < s.length)
    (c : Byte) : charAt buf (i + k) c = decide (s[k]? = some c) := by
  unfold SimpleXml.charAt
  rw [hHas.get hLess]

theorem Has.spaceAt (hLess : k < s.length) :
    spaceAt buf (i + k) = (s[k]?).any isspace := by
  unfold SimpleXml.spaceAt
  rw [hHas.get hLess]

omit hHas in
theorem Has.cons {c : Byte} (hHas : Has buf i (c :: s)) : buf[i]? = some c ∧ Has buf (i + 1) s :=
  ⟨hHas.get (Nat.zero_lt_succ _), Has.right (s := [c]) hHas⟩

theorem Has.slice_eq : slice buf i (i + s.length) = s := by
  rcases hHas with ⟨before, behind, rfl, rfl⟩
  unfold slice
  rw [Nat.add_sub_cancel_left, append_assoc, drop_left, take_left]

theorem Has.matchesAt : matchesAt buf i s = true := by
  rcases hHas with ⟨before, behind, rfl, rfl⟩
  unfold SimpleXml.matchesAt
  rw [append_assoc, drop_left, List.isPrefixOf_iff_prefix]
  exact prefix_append _ _

end

/- A string is not there when its first byte is not. -/
theorem matchesAt_of_head {c : Byte} (hChar : buf[i]? = some c)
    {d : Byte} (hNe : d ≠ c) (s : List Byte) : matchesAt buf i (d :: s) = false := by
  unfold SimpleXml.matchesAt
  rcases List.getElem?_eq_some_iff.mp hChar with ⟨hLess, rfl⟩
  rw [drop_eq_getElem_cons hLess]
  show (d == buf[i] && _) = false
  rw [beq_false_of_ne hNe, Bool.false_and]

theorem charAt_of_get {c : Byte} (hChar : buf[i]? = some c) (d : Byte) :
    charAt buf i d = decide (c = d) := by
  unfold SimpleXml.charAt
  rw [hChar]
  simp only [Option.some.injEq]

theorem spaceAt_of_get {c : Byte} (hChar : buf[i]? = some c) : spaceAt buf i = isspace c := by
  unfold SimpleXml.spaceAt
  rw [hChar, any_some]

---
-- Scans
---

variable {n itr : Nat}

theorem scanFor_of {stop : Nat → Bool} (hLess : k < n) (hBefore : ∀ j < k, stop (itr + j) = false)
    (hStop : stop (itr + k) = true) : scanFor stop n itr = some (itr + k) := by
  induction n generalizing itr k with
  | zero => exact absurd hLess (Nat.not_lt_zero _)
  | succ n ih =>
    rw [scanFor]
    cases k with
    | zero =>
      rw [Nat.add_zero] at hStop
      rw [if_pos hStop, Nat.add_zero]
    | succ k =>
      have hFirst := hBefore 0 (Nat.zero_lt_succ _)
      rw [Nat.add_zero] at hFirst
      rw [if_neg (Bool.eq_false_iff.mp hFirst),
        ih (k := k) (by omega) (fun j hJ => by
            rw [Nat.add_assoc, Nat.add_comm 1 j]
            exact hBefore (j + 1) (by omega))
          (by
            rw [Nat.add_assoc, Nat.add_comm 1 k]
            exact hStop)]
      congr 1
      omega

theorem scanFor_none {stop : Nat → Bool}
    (hNone : ∀ j < n, stop (itr + j) = false) : scanFor stop n itr = none := by
  cases hScan : scanFor stop n itr with
  | none => rfl
  | some i =>
    rcases scanFor_some hScan with ⟨hLow, hHigh, hStop⟩
    have hNot := hNone (i - itr) (by omega)
    rw [Nat.add_sub_cancel' hLow, hStop] at hNot
    exact nomatch hNot

variable {last : Nat}

/- Some spaces, and then none -/
theorem whitespaceSkip_of (hLess : itr + k < last) (hSpaces : ∀ j < k, spaceAt buf (itr + j) = true)
    (hChar : spaceAt buf (itr + k) = false) : whitespaceSkip buf itr last = itr + k := by
  unfold whitespaceSkip
  rw [scanFor_of (k := k) (by omega) (fun j hJ => by rw [hSpaces j hJ,
    Bool.not_true]) (by rw [hChar, Bool.not_false]), getD_some]

theorem whitespaceSkip_none (hLess : itr < last)
    (hChar : spaceAt buf itr = false) : whitespaceSkip buf itr last = itr :=
  whitespaceSkip_of (k := 0) hLess (fun _ hJ => absurd hJ (Nat.not_lt_zero _)) hChar

theorem whitespaceSkip_one (hLess : itr + 1 < last) (hSpace : spaceAt buf itr = true)
    (hChar : spaceAt buf (itr + 1) = false) : whitespaceSkip buf itr last = itr + 1 :=
  whitespaceSkip_of hLess (fun j hJ => by
      obtain rfl : j = 0 := by omega
      exact hSpace) hChar

/- It stops behind a byte that is no space, or at its bound. -/
theorem whitespaceUnskip_stop (start : Nat)
    (hStop : itr ≤ start ∨ spaceAt buf itr = false) :
    whitespaceUnskip buf (itr + 1) start = itr + 1 := by
  rw [whitespaceUnskip, if_neg]
  rintro ⟨hLess, hSpace⟩
  cases hStop with
  | inl hLe => omega
  | inr hChar => exact Bool.noConfusion (hSpace.symm.trans hChar)

variable {start : Nat}

theorem whitespaceUnskip_space (hLess : start < itr)
    (hSpace : spaceAt buf itr = true) :
    whitespaceUnskip buf (itr + 1) start = whitespaceUnskip buf itr start := by
  rw [whitespaceUnskip, if_pos ⟨hLess, hSpace⟩]

/- Nothing to strip -/
theorem stripped_of (hLess : start < last) (hFirst : spaceAt buf start = false)
    (hLast : spaceAt buf (last - 1) = false) : stripped buf start last = (start, last) := by
  unfold stripped
  rw [whitespaceSkip_none hLess hFirst]
  have hUnskip := whitespaceUnskip_stop (start + 1) (Or.inr hLast)
  rw [Nat.sub_add_cancel (by omega)] at hUnskip
  show (start, whitespaceUnskip buf last (start + 1)) = _
  rw [hUnskip]

---
-- Ends of Tags
---

/-
  Whether the end is searched inside a quote behind these
  bytes; `none` when it was found among them
-/
def quoteState : Bool → List Byte → Option Bool
  | quoted, [] => some quoted
  | quoted, c :: s =>
    let quoted := if c = 0x22 then !quoted else quoted
    if !quoted && (c = 0x3e || c = 0x3c) then none
    else quoteState quoted s

theorem quoteState_append (quoted : Bool) (s t : List Byte) :
    quoteState quoted (s ++ t) = (quoteState quoted s).bind (quoteState · t) := by
  induction s generalizing quoted with
  | nil => rfl
  | cons c s ih =>
    rw [cons_append, quoteState, quoteState]
    generalize (if c = 0x22 then !quoted else quoted) = q
    split
    · rfl
    · exact ih q

/- Outside of quotes, without quotes and ends -/
theorem quoteState_plain
    (hPlain : ∀ c ∈ s, c ≠ 0x22 ∧ c ≠ 0x3e ∧ c ≠ 0x3c) : quoteState false s = some false := by
  induction s with
  | nil => rfl
  | cons c s ih =>
    rcases hPlain c mem_cons_self with ⟨hQ, hGt, hLt⟩
    rw [quoteState, if_neg hQ, decide_eq_false hGt, decide_eq_false hLt]
    exact ih fun d hD => hPlain d (mem_cons_of_mem _ hD)

/- Inside of quotes -/
theorem quoteState_quoted (hPlain : ∀ c ∈ s, c ≠ 0x22) : quoteState true s = some true := by
  induction s with
  | nil => rfl
  | cons c s ih =>
    rw [quoteState, if_neg (hPlain c mem_cons_self)]
    exact ih fun d hD => hPlain d (mem_cons_of_mem _ hD)

theorem tagEndFrom_of {quoted : Bool} (hHas : Has buf i (s ++ [0x3e]))
    (hState : quoteState quoted s = some false) (hLess : s.length < n) :
    tagEndFrom buf n quoted i = some (i + s.length) := by
  induction s generalizing n quoted i with
  | nil =>
    cases n with
    | zero => exact absurd hLess (Nat.not_lt_zero _)
    | succ n =>
      obtain rfl : quoted = false := some.inj hState
      have hChar := charAt_of_get hHas.cons.1
      rw [tagEndFrom, hChar, hChar, hChar]
      rfl
  | cons c s ih =>
    cases n with
    | zero => exact absurd hLess (Nat.not_lt_zero _)
    | succ n =>
      have hChar := charAt_of_get hHas.cons.1
      rw [quoteState] at hState
      rw [tagEndFrom, hChar, hChar, hChar]
      simp only [decide_eq_true_eq] at hState ⊢
      generalize (if c = 0x22 then !quoted else quoted) = q at hState ⊢
      split at hState
      · cases hState
      · next hGoes =>
          rw [if_neg hGoes, ih hHas.cons.2 hState (Nat.lt_of_succ_lt_succ hLess), length_cons]
          congr 1
          omega

theorem tagEndFind_of (hHas : Has buf i (s ++ [0x3e]))
    (hState : quoteState false s = some false) : tagEndFind buf i = some (i + s.length) := by
  have hLength := hHas.length_le
  rw [length_append, length_singleton] at hLength
  exact tagEndFrom_of hHas hState (by omega)

/- Two dashes in a row are found in the text. -/
theorem dashes_within {text : List Byte} {c : Byte}
    (hFirst : text[k]? = some c) (hSecond : text[k + 1]? = some c) : [c, c] <:+: text := by
  rcases List.getElem?_eq_some_iff.mp hFirst with ⟨hLess, hGet⟩
  rcases List.getElem?_eq_some_iff.mp hSecond with ⟨hLess', hGet'⟩
  refine ⟨text.take k, text.drop (k + 2), ?_⟩
  rw [append_assoc]
  calc text.take k ++ ([c, c] ++ text.drop (k + 2)) = text.take k ++ text.drop k := by
        rw [drop_eq_getElem_cons hLess, drop_eq_getElem_cons hLess', hGet, hGet']
        rfl
    _ = text := take_append_drop k text

/- A comment ends at the first dashes behind its text. -/
theorem commentEnd_of {text : List Byte}
    (hHas : Has buf i (0x20 :: text ++ [0x20, 0x2d, 0x2d, 0x3e]))
    (hDashes : ¬ [0x2d, 0x2d] <:+: text) :
    tagCommentEndFind buf i = some (i + text.length + 4) := by
  have hLength := hHas.length_le
  have hStart : Has buf (i + (text.length + 2)) [0x2d, 0x2d, 0x3e] := by
    have hRight := Has.right (s := 0x20 :: text ++ [0x20]) (t :=
      [0x2d, 0x2d, 0x3e]) (by simpa using hHas)
    simpa using hRight
  unfold tagCommentEndFind doubleEndFind
  simp only [length_append, length_cons, length_nil] at hLength
  rw [scanFor_of (k := text.length + 2) (by omega)]
  · rw [map_some]
    congr 1
  · intro j hJ
    rw [Bool.and_eq_false_iff, Bool.and_eq_false_iff]
    by_contra hNot
    rw [not_or, not_or, Bool.not_eq_false, Bool.not_eq_false] at hNot
    rcases hNot with ⟨⟨hFirst, hSecond⟩, -⟩
    rw [Has.charAt hHas (by simp; omega), decide_eq_true_eq] at hFirst
    rw [Nat.add_assoc, Has.charAt hHas (by simp; omega), decide_eq_true_eq] at hSecond
    cases j with
    | zero => exact nomatch some.inj hFirst
    | succ k =>
      rw [cons_append, getElem?_cons_succ] at hFirst
      rw [cons_append, getElem?_cons_succ] at hSecond
      by_cases hLast : k + 1 < text.length
      · rw [getElem?_append_left (by omega)] at hFirst
        rw [getElem?_append_left hLast] at hSecond
        exact hDashes (dashes_within hFirst hSecond)
      · by_cases hBehind : k = text.length
        · subst hBehind
          rw [getElem?_append_right (Nat.le_refl _), Nat.sub_self] at hFirst
          exact nomatch some.inj hFirst
        · obtain hEq : k + 1 = text.length := by omega
          rw [hEq, getElem?_append_right (Nat.le_refl _), Nat.sub_self] at hSecond
          exact nomatch some.inj hSecond
  · rw [charAt_of_get hStart.cons.1, charAt_of_get hStart.cons.2.cons.1,
      charAt_of_get hStart.cons.2.cons.2.cons.1]
    rfl

---
-- Rounds
---

theorem token_of (kind : Kind) (hLess : start ≤ last)
    (hLast : last < 4294967296) : token kind start last = ⟨kind, start, last - start⟩ := by
  unfold token
  congr 1
  omega

/- A round at a tag that ends and is stripped -/
theorem step_tag (toff : Nat) {kind trimmed : Kind} {p end' : Nat}
    (hOpen : charAt buf i 0x3c = true) (hType : tagType buf i = (kind, toff))
    (hEnd : tagEnd buf kind (i + 1 + toff) = some p)
    (hGt : charAt buf p 0x3e = true) (hBehind : i < p)
    (hTrim : tagTrim buf kind p = (trimmed, end')) (hKind : trimmed ≠ .error ∧ trimmed ≠ .cdata)
    (hStrip : stripped buf (i + 1 + toff) end' = (start, last)) :
    step buf true i = ([token trimmed start last], .go (p + 1)) := by
  have hLess := charAt_lt hGt
  have hNotLt : charAt buf p 0x3c = false := by
    cases hLt : charAt buf p 0x3c with
    | false => rfl
    | true => exact absurd (charAt_unique hGt hLt) (by decide)
  unfold step tagStep
  rw [if_pos hOpen, if_neg (by omega), hType]
  dsimp only
  rw [hEnd]
  dsimp only
  unfold tagToken
  rw [hNotLt]
  dsimp only [Bool.false_eq_true, if_false]
  rw [if_neg Bool.false_ne_true]
  dsimp only
  rw [hTrim]
  dsimp only
  rw [if_pos ⟨rfl, hKind⟩, hStrip]
  dsimp only
  rw [if_pos hKind.1]

end Efl.Eina.SimpleXml
