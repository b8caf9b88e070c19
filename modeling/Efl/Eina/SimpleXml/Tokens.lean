import Efl.Eina.SimpleXml.Model

/-
  The tokens that are reported lie in the buffer, one after
  the other, unless a processing tag is closed by its own
  question mark.

  Main declarations:
    * `Between`
    * `Bare`, `Reached`
    * `step_between`
    * `parse_tokens_iff`
-/

---
-- Scanning
---

namespace Efl.Eina.SimpleXml

open Bytes Option

section

variable {i : Nat}

theorem scanFor_some {stop : Nat → Bool} {n itr : Nat}
    (hScan : scanFor stop n itr = some i) : itr ≤ i ∧ i < itr + n ∧ stop i = true := by
  induction n generalizing itr with
  | zero => exact nomatch hScan
  | succ n ih =>
    rw [scanFor] at hScan
    split at hScan
    · next hStop =>
        obtain rfl := some.inj hScan
        exact ⟨Nat.le_refl _, by omega, hStop⟩
    · rcases ih hScan with ⟨hLow, hHigh, hStop⟩
      exact ⟨by omega, by omega, hStop⟩

theorem charAt_lt {buf : List Byte} {c : Byte}
    (hChar : charAt buf i c = true) : i < buf.length := by
  unfold charAt at hChar
  rw [decide_eq_true_eq] at hChar
  exact (List.getElem?_eq_some_iff.mp hChar).1

theorem charAt_unique {buf : List Byte} {c d : Byte}
    (hChar : charAt buf i c = true) (hOther : charAt buf i d = true) : c = d := by
  unfold charAt at hChar hOther
  rw [decide_eq_true_eq] at hChar hOther
  exact some.inj (hChar.symm.trans hOther)

variable {last : Nat}

theorem whitespaceSkip_le (buf : List Byte) {itr : Nat}
    (hLess : itr ≤ last) :
    itr ≤ whitespaceSkip buf itr last ∧ whitespaceSkip buf itr last ≤ last := by
  unfold whitespaceSkip
  cases hScan : scanFor (fun i => !spaceAt buf i) (last - itr) itr with
  | none =>
    rw [getD_none]
    omega
  | some i =>
    have := scanFor_some hScan
    rw [getD_some]
    omega

/- Nothing is skipped in an empty range. -/
theorem whitespaceSkip_of_le {buf : List Byte} {itr : Nat}
    (hLess : last ≤ itr) : whitespaceSkip buf itr last = itr := by
  unfold whitespaceSkip
  rw [Nat.sub_eq_zero_of_le hLess, scanFor, getD_none, Nat.max_eq_left hLess]

theorem whitespaceUnskip_le (buf : List Byte) (itr start : Nat) :
    min itr (start + 1) ≤ whitespaceUnskip buf itr start ∧
      whitespaceUnskip buf itr start ≤ itr := by
  induction itr with
  | zero => exact ⟨Nat.min_le_left _ _, Nat.le_refl _⟩
  | succ itr ih =>
    rw [whitespaceUnskip]
    split
    · omega
    · omega

variable {p : Nat}

theorem tagEndFrom_some {buf : List Byte} {n : Nat} {quoted : Bool}
    {itr : Nat} (hEnd : tagEndFrom buf n quoted itr = some p) :
    itr ≤ p ∧ (charAt buf p 0x3e = true ∨ charAt buf p 0x3c = true) := by
  induction n generalizing quoted itr with
  | zero => exact nomatch hEnd
  | succ n ih =>
    rw [tagEndFrom] at hEnd
    generalize (if charAt buf itr 0x22 = true then !quoted
      else quoted) = inside at hEnd
    split at hEnd
    · next hStop =>
        obtain rfl := some.inj hEnd
        rw [Bool.and_eq_true, Bool.or_eq_true] at hStop
        exact ⟨Nat.le_refl _, hStop.2⟩
    · rcases ih hEnd with ⟨hLow, hChar⟩
      exact ⟨by omega, hChar⟩

theorem doubleEndFind_some {c : Byte} {buf : List Byte} {itr : Nat}
    (hEnd : doubleEndFind c buf itr = some p) : itr + 2 ≤ p ∧ charAt buf p 0x3e = true := by
  unfold doubleEndFind at hEnd
  rw [map_eq_some_iff] at hEnd
  rcases hEnd with ⟨i, hScan, rfl⟩
  rcases scanFor_some hScan with ⟨hLow, -, hStop⟩
  rw [Bool.and_eq_true] at hStop
  exact ⟨by omega, hStop.2⟩

---
-- Tags
---

/- A processing tag of nothing but its question mark -/
def Bare (buf : List Byte) (itr : Nat) : Prop :=
  charAt buf itr 0x3c = true ∧
    charAt buf (itr + 1) 0x3f = true ∧
    charAt buf (itr + 2) 0x3e = true

/- The types that a tag can start with -/
def IsTagType (buf : List Byte) (itr : Nat) : Kind × Nat → Prop
  | (.close, toff) => toff = 1
  | (.processing, toff) => toff = 1 ∧ charAt buf (itr + 1) 0x3f = true
  | (.doctype, toff) => toff = 8
  | (.comment, toff) => toff = 3
  | (.cdata, toff) => toff = 8
  | (.doctypeChild, toff) => toff = 1
  | (.opening, toff) => toff = 0 ∧ charAt buf (itr + 1) 0x2f = false
  | _ => False

theorem tagType_spec (buf : List Byte) (itr : Nat) : IsTagType buf itr (tagType buf itr) := by
  unfold tagType
  split
  · rfl
  · next hSlash =>
      rw [Bool.not_eq_true] at hSlash
      split
      · next hMark => exact ⟨rfl, hMark⟩
      · split
        · split
          · rfl
          · split
            · rfl
            · split
              · rfl
              · split
                · rfl
                · exact ⟨rfl, hSlash⟩
        · exact ⟨rfl, hSlash⟩

variable {kind : Kind}

/- Where the end of a tag is -/
theorem tagEnd_some {buf : List Byte} {itr : Nat}
    (hEnd : tagEnd buf kind itr = some p) :
    itr ≤ p ∧
      (charAt buf p 0x3e = true ∨ charAt buf p 0x3c = true) ∧
      (kind = .comment ∨ kind = .cdata → itr + 2 ≤ p ∧ charAt buf p 0x3e = true) := by
  have hDouble : ∀ c, doubleEndFind c buf itr = some p →
      itr ≤ p ∧
        (charAt buf p 0x3e = true ∨ charAt buf p 0x3c = true) ∧
        (kind = .comment ∨ kind = .cdata → itr + 2 ≤ p ∧ charAt buf p 0x3e = true) := by
    intro c hFind
    rcases doubleEndFind_some hFind with ⟨hLow, hChar⟩
    exact ⟨by omega, Or.inl hChar, fun _ => ⟨hLow, hChar⟩⟩
  cases kind with
  | cdata => exact hDouble _ hEnd
  | comment => exact hDouble _ hEnd
  | doctypeChild =>
    rcases scanFor_some hEnd with ⟨hLow, -, hChar⟩
    exact ⟨hLow, Or.inl hChar, by simp⟩
  | _ =>
    rcases tagEndFrom_some hEnd with ⟨hLow, hChar⟩
    exact ⟨hLow, hChar, by simp⟩

variable {toff : Nat}

/- What is left of a tag is not before its start. -/
theorem tagTrim_spec {buf : List Byte} {itr : Nat}
    (hType : IsTagType buf itr (kind, toff)) (hStart : itr + 1 + toff ≤ p)
    (hDouble : kind = .comment ∨ kind = .cdata → itr + 1 + toff + 2 ≤ p)
    (hChar : charAt buf itr 0x3c = true)
    (hEnd : charAt buf p 0x3e = true) (hBare : ¬ Bare buf itr) :
    itr + 1 + toff ≤ (tagTrim buf kind p).2 ∧ (tagTrim buf kind p).2 ≤ p := by
  cases kind with
  | opening =>
    rcases hType with ⟨rfl, hSlash⟩
    unfold tagTrim
    dsimp only
    split
    · next hBefore =>
        have hNot : p ≠ itr + 1 := by
          rintro rfl
          exact absurd (charAt_unique hBefore hChar) (by decide)
        exact ⟨by dsimp only; omega, by dsimp only; omega⟩
    · exact ⟨hStart, Nat.le_refl _⟩
  | processing =>
    rcases hType with ⟨rfl, hMark⟩
    unfold tagTrim
    dsimp only
    split
    · next hBefore =>
        have hNot : p ≠ itr + 2 := by
          rintro rfl
          exact hBare ⟨hChar, hMark, hEnd⟩
        exact ⟨by dsimp only; omega, by dsimp only; omega⟩
    · exact ⟨hStart, Nat.le_refl _⟩
  | comment =>
    have hRoom := hDouble (Or.inl rfl)
    unfold tagTrim
    dsimp only
    split
    · exact ⟨by dsimp only; omega, by dsimp only; omega⟩
    · exact ⟨hStart, Nat.le_refl _⟩
  | cdata =>
    have hRoom := hDouble (Or.inr rfl)
    unfold tagTrim
    dsimp only
    split
    · exact ⟨by dsimp only; omega, by dsimp only; omega⟩
    · exact ⟨hStart, Nat.le_refl _⟩
  | error => exact hType.elim
  | _ => exact ⟨hStart, Nat.le_refl _⟩

theorem tagTrim_ne {buf : List Byte} {itr : Nat} (p : Nat)
    (hType : IsTagType buf itr (kind, toff)) :
    (tagTrim buf kind p).1 ≠ .error ∧ (tagTrim buf kind p).1 ≠ .data := by
  unfold tagTrim
  cases kind with
  | error => exact hType.elim
  | data => exact hType.elim
  | _ =>
    dsimp only
    first
    | split <;> exact ⟨by simp, by simp⟩
    | exact ⟨by simp, by simp⟩

theorem stripped_spec {buf : List Byte} {start : Nat}
    (hOrder : start ≤ last) :
    start ≤ (stripped buf start last).1 ∧
      (stripped buf start last).1 ≤ (stripped buf start last).2 ∧
      (stripped buf start last).2 ≤ last := by
  have hSkip := whitespaceSkip_le buf hOrder
  have hUnskip := whitespaceUnskip_le buf last (whitespaceSkip buf start last + 1)
  unfold stripped
  dsimp only
  omega

---
-- Rounds
---

/- Tokens in a range, one after the other -/
def Between (a b : Nat) (tokens : List Token) : Prop :=
  (∀ t ∈ tokens, a ≤ t.offset ∧ t.offset + t.length ≤ b) ∧
    tokens.Pairwise fun s t => s.offset + s.length ≤ t.offset

theorem between_nil (a b : Nat) : Between a b [] :=
  ⟨fun _ hMem => (nomatch hMem), List.Pairwise.nil⟩

variable {a b : Nat}

theorem between_token {start : Nat} (hBound : b < 4294967296)
    (hLow : a ≤ start) (hOrder : start ≤ last) (hHigh : last ≤ b) :
    Between a b [token kind start last] := by
  refine ⟨fun t hMem => ?_, List.pairwise_singleton _ _⟩
  cases List.mem_singleton.mp hMem
  dsimp only [token]
  omega

variable {s : List Token}

theorem Between.append {c : Nat} {t : List Token}
    (hFirst : Between a b s) (hSecond : Between b c t) (hLow : a ≤ b)
    (hHigh : b ≤ c) : Between a c (s ++ t) := by
  constructor
  · intro x hMem
    rcases List.mem_append.mp hMem with hMem | hMem
    · have := hFirst.1 x hMem
      omega
    · have := hSecond.1 x hMem
      omega
  · rw [List.pairwise_append]
    refine ⟨hFirst.2, hSecond.2, ?_⟩
    intro x hX y hY
    have := hFirst.1 x hX
    have := hSecond.1 y hY
    omega

theorem Between.mono {b' : Nat} (hBetween : Between a b s) (hLess : b ≤ b') : Between a b' s := by
  refine ⟨fun t hMem => ?_, hBetween.2⟩
  have := hBetween.1 t hMem
  omega

theorem Between.of_start {t : List Token} (hBetween : Between a b t)
    (hPrefix : s <+: t) : Between a b s :=
  ⟨fun x hMem => hBetween.1 x (hPrefix.subset hMem),
    List.Pairwise.sublist hPrefix.sublist hBetween.2⟩

/- From a `<` to what ends the tag -/
def TagSpan (buf : List Byte) (lt last : Nat) : Prop :=
  charAt buf lt 0x3c = true ∧ lt < last ∧
    (charAt buf (last - 1) 0x3e = true ∨
      charAt buf last 0x3c = true)

variable {buf : List Byte} {itr : Nat}

/- A round at a tag that has an end -/
theorem tagToken_spec (strip : Bool) (hType : IsTagType buf itr (kind, toff))
    (hEnd : tagEnd buf kind (itr + 1 + toff) = some p) (hChar : charAt buf itr 0x3c = true)
    (hBound : buf.length < 4294967296) :
    ∃ t next, tagToken buf strip itr kind toff p = (t, .go next) ∧
      next ≤ buf.length ∧ t.kind ≠ .data ∧
      TagSpan buf itr next ∧ (¬ Bare buf itr → Between itr next [t]) := by
  rcases tagEnd_some hEnd with ⟨hLow, hStop, hDouble⟩
  by_cases hError : charAt buf p 0x3c = true
  · have hIn := charAt_lt hError
    refine ⟨token .error (itr + 1) p, p, ?_, Nat.le_of_lt hIn,
      by simp [token], ⟨hChar, by omega, Or.inr hError⟩, fun _ =>
        between_token (by omega) (by omega) (by omega) (by omega)⟩
    simp only [tagToken, hError, if_true, tagTrim, ne_eq,
      not_true_eq_false, false_and, and_false, if_false]
  · have hGreater : charAt buf p 0x3e = true := hStop.resolve_right hError
    have hIn := charAt_lt hGreater
    rcases tagTrim_ne p hType with ⟨hKind, hData⟩
    let k := (tagTrim buf kind p).1
    let last := (tagTrim buf kind p).2
    let range := if strip ∧ k ≠ .error ∧ k ≠ .cdata then
      stripped buf (itr + 1 + toff) last
      else (itr + 1 + toff, last)
    refine ⟨token k range.1 range.2, p + 1, ?_, hIn, hData, ⟨hChar, by omega, Or.inl hGreater⟩, ?_⟩
    · unfold tagToken
      simp only [hError, Bool.false_eq_true, if_false, if_pos hKind]
      rfl
    · intro hBare
      rcases tagTrim_spec hType hLow (fun hKinds =>
          (hDouble hKinds).1) hChar hGreater hBare with ⟨hStart, hLast⟩
      have hRange : itr + 1 + toff ≤ range.1 ∧ range.1 ≤ range.2 ∧ range.2 ≤ last := by
        by_cases hStrip : strip ∧ k ≠ .error ∧ k ≠ .cdata
        · rw [show range = stripped buf (itr + 1 + toff) last from
            if_pos hStrip]
          exact stripped_spec hStart
        · rw [show range = (itr + 1 + toff, last) from if_neg hStrip]
          exact ⟨Nat.le_refl _, hStart, Nat.le_refl _⟩
      exact between_token (by omega) (by omega) (by omega) (by omega)

/- The bare tag gives a length of one less than nothing. -/
theorem step_bare (strip : Bool) (hBare : Bare buf itr) :
    step buf strip itr = ([token .processing (itr + 2) (itr + 1)], .go (itr + 3)) := by
  rcases hBare with ⟨hChar, hMark, hGreater⟩
  have hIn := charAt_lt hGreater
  have hNotSlash : charAt buf (itr + 1) 0x2f = false := by
    rw [Bool.eq_false_iff]
    intro hSlash
    exact absurd (charAt_unique hSlash hMark) (by decide)
  have hNotQuote : charAt buf (itr + 2) 0x22 = false := by
    rw [Bool.eq_false_iff]
    intro hQuote
    exact absurd (charAt_unique hQuote hGreater) (by decide)
  have hNotLess : charAt buf (itr + 2) 0x3c = false := by
    rw [Bool.eq_false_iff]
    intro hLess
    exact absurd (charAt_unique hLess hGreater) (by decide)
  have hType : tagType buf itr = (.processing, 1) := by
    rw [tagType, hNotSlash, hMark]
    rfl
  have hEnd : tagEnd buf .processing (itr + 1 + 1) = some (itr + 2) := by
    show tagEndFrom buf (buf.length - (itr + 2)) false (itr + 2) = _
    rw [show buf.length - (itr + 2) = (buf.length - (itr + 3)) +
      1 by omega, tagEndFrom, hNotQuote, hGreater]
    rfl
  have hTrim : tagTrim buf .processing (itr + 2) = (.processing, itr + 1) := by
    show (if charAt buf (itr + 1) 0x3f then _ else _) = _
    rw [hMark]
    rfl
  have hEmpty : stripped buf (itr + 1 + 1) (itr + 1) = (itr + 2, itr + 1) := by
    unfold stripped
    rw [whitespaceSkip_of_le (by omega)]
    show (itr + 2, whitespaceUnskip buf (itr + 1) (itr + 3)) = _
    rw [whitespaceUnskip, if_neg (by omega)]
  have hToken : tagToken buf strip itr .processing 1 (itr + 2) =
      (token .processing (itr + 2) (itr + 1), .go (itr + 3)) := by
    unfold tagToken
    simp only [hNotLess, Bool.false_eq_true, if_false, hTrim, hEmpty]
    cases strip <;> rfl
  rw [step, if_pos hChar, tagStep, if_neg (by omega), hType]
  dsimp only
  rw [hEnd]
  dsimp only
  rw [hToken]

theorem dataTokens_spec (strip : Bool) (hIn : itr ≤ buf.length)
    (hBound : buf.length < 4294967296) :
    ∃ next, (dataTokens buf strip itr).2 = .go next ∧
      itr ≤ next ∧ next ≤ buf.length ∧
      (itr < buf.length → charAt buf itr 0x3c = false → itr < next) ∧
      Between itr next (dataTokens buf strip itr).1 := by
  let p := (tagStartFind buf itr).getD buf.length
  have hP : itr ≤ p ∧ p ≤ buf.length ∧
      (itr < buf.length → charAt buf itr 0x3c = false → itr < p) := by
    show itr ≤ (tagStartFind buf itr).getD buf.length ∧
      (tagStartFind buf itr).getD buf.length ≤ buf.length ∧
      (_ → _ → itr < (tagStartFind buf itr).getD buf.length)
    cases hScan : tagStartFind buf itr with
    | none => exact ⟨hIn, Nat.le_refl _, fun hLess _ => hLess⟩
    | some i =>
      rcases scanFor_some hScan with ⟨hLow, hHigh, hChar⟩
      rw [getD_some]
      refine ⟨hLow, by omega, fun _ hNot => ?_⟩
      have hNe : i ≠ itr := by
        rintro rfl
        rw [hNot] at hChar
        exact nomatch hChar
      omega
  rcases hP with ⟨hLow, hHigh, hMore⟩
  let last := if strip then whitespaceUnskip buf p itr else p
  have hLast : itr ≤ last ∧ last ≤ p := by
    show itr ≤ (if strip then _ else _) ∧ (if strip then _ else _) ≤ p
    cases strip with
    | false => exact ⟨hLow, Nat.le_refl _⟩
    | true =>
      have := whitespaceUnskip_le buf p itr
      simp only [if_true]
      omega
  refine ⟨p, rfl, hLow, hHigh, hMore, ?_⟩
  have hData : Between itr last (if itr ≠ last then [token .data itr last] else []) := by
    split
    · exact between_token (by omega) (Nat.le_refl _) hLast.1 (Nat.le_refl _)
    · exact between_nil _ _
  have hRest : Between last p (if strip ∧ last < p then [token .ignored last p]
    else []) := by
    split
    · exact between_token (by omega) (Nat.le_refl _) hLast.2 (Nat.le_refl _)
    · exact between_nil _ _
  exact hData.append hRest hLast.1 hLast.2

/- What a round reports, and that it gets on -/
theorem step_spec (strip : Bool) (hIn : itr < buf.length)
    (hBound : buf.length < 4294967296) :
    (∃ next, (step buf strip itr).2 = .go next ∧
        itr < next ∧ next ≤ buf.length ∧
        (¬ Bare buf itr → Between itr next (step buf strip itr).1)) ∨
      ((step buf strip itr).2 = .stop ∧ Between itr buf.length (step buf strip itr).1) := by
  unfold step
  by_cases hChar : charAt buf itr 0x3c = true
  · rw [if_pos hChar, tagStep]
    have hError : Between itr buf.length [token .error itr buf.length] :=
      between_token hBound (Nat.le_refl _) (Nat.le_of_lt hIn) (Nat.le_refl _)
    split
    · exact Or.inr ⟨rfl, hError⟩
    · have hType := tagType_spec buf itr
      generalize tagType buf itr = start at hType
      rcases start with ⟨kind, toff⟩
      dsimp only
      cases hEnd : tagEnd buf kind (itr + 1 + toff) with
      | none => exact Or.inr ⟨rfl, hError⟩
      | some p =>
        rcases tagToken_spec strip hType hEnd hChar hBound with
          ⟨t, next, hToken, hHigh, -, hSpan, hBetween⟩
        dsimp only
        rw [hToken]
        exact Or.inl ⟨next, rfl, hSpan.2.1, hHigh, hBetween⟩
  · rw [if_neg hChar, dataStep]
    rw [Bool.not_eq_true] at hChar
    cases strip with
    | false =>
      rcases dataTokens_spec false (Nat.le_of_lt hIn) hBound with
        ⟨next, hNext, -, hHigh, hMore, hBetween⟩
      exact Or.inl ⟨next, hNext, hMore hIn hChar, hHigh, fun _ => hBetween⟩
    | true =>
      have hSkip := whitespaceSkip_le buf (Nat.le_of_lt hIn)
      rcases dataTokens_spec true hSkip.2 hBound with ⟨next, hNext, hLow, hHigh, hMore, hBetween⟩
      have hIgnored : Between itr (whitespaceSkip buf itr buf.length)
          [token .ignored itr (whitespaceSkip buf itr buf.length)] :=
        between_token (by omega) (Nat.le_refl _) hSkip.1 (Nat.le_refl _)
      have hProgress : itr < next := by
        by_cases hSame : whitespaceSkip buf itr buf.length = itr
        · rw [hSame] at hMore hLow
          exact hMore hIn hChar
        · omega
      refine Or.inl ⟨next, hNext, hProgress, hHigh, fun _ => ?_⟩
      exact hIgnored.append hBetween hSkip.1 hLow

end

---
-- Runs
---

open List

/-
  From `itr` on, the data tokens and the spans of the tags are
  the buffer.
-/
inductive Covered (buf : List Byte) : Nat → List Token → Prop
  | done : Covered buf buf.length []
  | data {itr next : Nat} {tokens : List Token}
      (hSome : itr < next)
      (hRest : Covered buf next tokens) :
      Covered buf itr (⟨.data, itr, next - itr⟩ :: tokens)
  | tag {itr next : Nat} {t : Token} {tokens : List Token}
      (hSpan : TagSpan buf itr next)
      (hTag : t.kind ≠ .data)
      (hRest : Covered buf next tokens) :
      Covered buf itr (t :: tokens)

variable {buf : List Byte} {itr : Nat}
variable {func : List Token → Bool} {strip : Bool}

/- Where a round of the loop starts, and what was reported -/
inductive Reached (func : List Token → Bool) (buf : List Byte) (strip : Bool) :
    Nat → List Token → Prop
  | start : Reached func buf strip 0 []
  | next {itr next : Nat} {reported : List Token}
      (hBefore : Reached func buf strip itr reported)
      (hIn : itr < buf.length)
      (hStep : (step buf strip itr).2 = .go next)
      (hReport : (report func reported
        (step buf strip itr).1).2 = true) :
      Reached func buf strip next
        (report func reported (step buf strip itr).1).1

theorem Covered.step {next : Nat} {tokens : List Token}
    (hIn : itr < buf.length) (hBound : buf.length < 4294967296)
    (hStep : (step buf false itr).2 = .go next)
    (hRest : Covered buf next tokens) :
    Covered buf itr ((SimpleXml.step buf false itr).1 ++ tokens) := by
  unfold SimpleXml.step at hStep ⊢
  by_cases hChar : charAt buf itr 0x3c = true
  · rw [if_pos hChar, tagStep] at hStep ⊢
    split at hStep
    · exact nomatch hStep
    · next hMore =>
        rw [if_neg hMore]
        have hType := tagType_spec buf itr
        generalize tagType buf itr = start at hType hStep
        rcases start with ⟨kind, toff⟩
        dsimp only at hStep ⊢
        cases hEnd : tagEnd buf kind (itr + 1 + toff) with
        | none =>
          rw [hEnd] at hStep
          exact nomatch hStep
        | some p =>
          rcases tagToken_spec false hType hEnd hChar hBound with
            ⟨t, next', hToken, -, hTag, hSpan, -⟩
          rw [hEnd] at hStep
          dsimp only at hStep ⊢
          rw [hToken] at hStep ⊢
          cases hStep
          exact .tag hSpan hTag hRest
  · rw [if_neg hChar] at hStep ⊢
    rw [Bool.not_eq_true] at hChar
    rcases dataTokens_spec false (Nat.le_of_lt hIn) hBound with ⟨next', hNext, -, hHigh, hMore, -⟩
    have hSame : next' = next := by
      have hGo := hNext.symm.trans hStep
      cases hGo
      rfl
    subst hSame
    have hLess := hMore hIn hChar
    have hIs : (tagStartFind buf itr).getD buf.length = next' := by
      injection hNext
    have hTokens : (dataTokens buf false itr).1 = [⟨.data, itr, next' - itr⟩] := by
      unfold dataTokens
      rw [hIs]
      simp only [Bool.false_eq_true, if_false, false_and, append_nil,
        ne_eq, Nat.ne_of_lt hLess, not_false_eq_true, if_true, token]
      congr 2
      omega
    show Covered buf itr ((dataTokens buf false itr).1 ++ tokens)
    rw [hTokens]
    exact .data hLess hRest

/- The calls are the first ones of those to be made. -/
theorem report_spec
    (func : List Token → Bool) (reported tokens : List Token) :
    ∃ made, made <+: tokens ∧
      (report func reported tokens).1 = reported ++ made ∧
      ((report func reported tokens).2 = true → made = tokens) ∧ (tokens ≠ [] → made ≠ []) := by
  induction tokens generalizing reported with
  | nil =>
    exact ⟨[], prefix_refl _, (append_nil _).symm, fun _ => rfl, fun hNot => absurd rfl hNot⟩
  | cons t tokens ih =>
    rw [report]
    split
    · rcases ih (reported ++ [t]) with ⟨made, hPrefix, hReported, hAll, -⟩
      refine ⟨t :: made, ?_, ?_, ?_, fun _ => cons_ne_nil _ _⟩
      · rw [prefix_cons_inj]
        exact hPrefix
      · rw [hReported, append_assoc]
        rfl
      · exact fun hOk => congrArg (t :: ·) (hAll hOk)
    · exact ⟨[t], ⟨tokens, rfl⟩, rfl, fun hOk => (nomatch hOk), fun _ => cons_ne_nil _ _⟩

/- A round, and those after it -/
theorem parseFrom_succ (rounds : Nat) (reported : List Token)
    (hIn : itr < buf.length) :
    parseFrom func buf strip (rounds + 1) itr reported =
      match (report func reported (step buf strip itr).1).2, (step buf strip itr).2 with
      | true, .go next =>
        parseFrom func buf strip rounds next (report func reported (step buf strip itr).1).1
      | _, _ =>
        some (false, (report func reported (step buf strip itr).1).1) := by
  exact if_pos hIn

/- The loop ends, and what was reported stays. -/
theorem parseFrom_spec (func : List Token → Bool) (strip : Bool)
    {rounds : Nat} (reported : List Token)
    (hBound : buf.length < 4294967296) (hItr : itr ≤ buf.length)
    (hRounds : buf.length - itr ≤ rounds) :
    ∃ ok tokens, parseFrom func buf strip rounds itr reported =
        some (ok, reported ++ tokens) ∧
      (strip = false → ok = true → Covered buf itr tokens) := by
  induction rounds generalizing itr reported with
  | zero =>
    have hEnd : itr = buf.length := by omega
    refine ⟨true, [], ?_, fun _ _ => hEnd ▸ .done⟩
    rw [parseFrom, if_neg (by omega), append_nil]
  | succ rounds ih =>
    by_cases hIn : itr < buf.length
    · rw [parseFrom_succ rounds reported hIn]
      rcases report_spec func reported (step buf strip itr).1 with ⟨made, -, hReported, hAll, -⟩
      rw [hReported]
      cases hOk : (report func reported (step buf strip itr).1).2 with
      | false => exact ⟨false, made, rfl, fun _ hTrue => nomatch hTrue⟩
      | true =>
        rcases step_spec strip hIn hBound with ⟨next, hGo, hMore, hHigh, -⟩ | ⟨hStop, -⟩
        · have hNext : buf.length - next ≤ rounds := by omega
          rcases ih (reported ++ made) hHigh hNext with ⟨ok, tokens, hRun, hCovered⟩
          rw [hGo]
          refine ⟨ok, made ++ tokens, ?_, ?_⟩
          · rw [← append_assoc]
            exact hRun
          · intro hStrip hTrue
            subst hStrip
            rw [hAll hOk]
            exact Covered.step hIn hBound hGo (hCovered rfl hTrue)
        · rw [hStop]
          exact ⟨false, made, rfl, fun _ hTrue => nomatch hTrue⟩
    · have hEnd : itr = buf.length := by omega
      refine ⟨true, [], ?_, fun _ _ => hEnd ▸ .done⟩
      rw [parseFrom, if_neg hIn, append_nil]

---
-- When the Tokens Are in Place
---

/- No round starts at a bare tag. -/
def Clear (func : List Token → Bool) (buf : List Byte) (strip : Bool) : Prop :=
  ∀ itr reported, Reached func buf strip itr reported →
    ¬ Bare buf itr

variable {reported : List Token}

theorem parseFrom_between (hClear : Clear func buf strip)
    (hBound : buf.length < 4294967296) {rounds : Nat} {all : List Token} {ok : Bool}
    (hReached : Reached func buf strip itr reported)
    (hItr : itr ≤ buf.length) (hBetween : Between 0 itr reported)
    (hRun : parseFrom func buf strip rounds itr reported =
      some (ok, all)) : Between 0 buf.length all := by
  induction rounds generalizing itr reported with
  | zero =>
    rw [parseFrom] at hRun
    split at hRun
    · exact nomatch hRun
    · cases hRun
      exact hBetween.mono hItr
  | succ rounds ih =>
    by_cases hIn : itr < buf.length
    · rw [parseFrom_succ rounds reported hIn] at hRun
      rcases report_spec func reported (step buf strip itr).1 with
        ⟨made, hPrefix, hReported, hAll, -⟩
      rcases step_spec strip hIn hBound with ⟨next, hGo, hMore, hHigh, hRound⟩ | ⟨hStop, hRound⟩
      · have hMade := ((hRound (hClear _ _ hReached)).of_start hPrefix)
        have hNew := hBetween.append hMade (Nat.zero_le _) (Nat.le_of_lt hMore)
        rw [hGo] at hRun
        cases hOk : (report func reported (step buf strip itr).1).2 with
        | false =>
          rw [hOk, hReported] at hRun
          cases hRun
          exact hNew.mono hHigh
        | true =>
          have hNext := Reached.next hReached hIn hGo hOk
          rw [hOk] at hRun
          rw [hReported] at hRun hNext
          exact ih hNext hHigh hNew hRun
      · rw [hStop, hReported] at hRun
        have hNew := hBetween.append (hRound.of_start hPrefix) (Nat.zero_le _) hItr
        cases hOk : (report func reported (step buf strip itr).1).2 with
        | false =>
          rw [hOk] at hRun
          cases hRun
          exact hNew
        | true =>
          rw [hOk] at hRun
          cases hRun
          exact hNew
    · rw [parseFrom, if_neg hIn] at hRun
      cases hRun
      exact hBetween.mono hItr

/- The run goes on from where a round starts. -/
theorem Reached.run (hReached : Reached func buf strip itr reported)
    (hBound : buf.length < 4294967296) :
    itr ≤ buf.length ∧ ∃ rounds, buf.length - itr ≤ rounds ∧
      parse func buf strip = parseFrom func buf strip rounds itr reported := by
  induction hReached with
  | start => exact ⟨Nat.zero_le _, buf.length, Nat.le_refl _, rfl⟩
  | next hBefore hIn hStep hReport ih =>
    rename_i itr next reported
    rcases ih with ⟨-, rounds, hRounds, hRun⟩
    rcases step_spec strip hIn hBound with ⟨next', hGo, hMore, hHigh, -⟩ | ⟨hStop, -⟩
    · rw [hStep] at hGo
      cases hGo
      obtain ⟨rounds, rfl⟩ : ∃ r, rounds = r + 1 := ⟨rounds - 1, by omega⟩
      refine ⟨hHigh, rounds, by omega, ?_⟩
      rw [hRun, parseFrom_succ rounds reported hIn, hReport, hStep]
    · rw [hStep] at hStop
      exact nomatch hStop

/- A bare tag is reported, and its length is out of bounds. -/
theorem not_between_of_bare (hBound : buf.length < 4294967296) {all : List Token} {ok : Bool}
    (hReached : Reached func buf strip itr reported) (hBare : Bare buf itr)
    (hRun : parse func buf strip = some (ok, all)) : ¬ Between 0 buf.length all := by
  intro hBetween
  have hIn := charAt_lt hBare.1
  rcases hReached.run hBound with ⟨-, rounds, hRounds, hSame⟩
  obtain ⟨rounds, rfl⟩ : ∃ r, rounds = r + 1 := ⟨rounds - 1, by omega⟩
  rw [hSame, parseFrom_succ rounds reported hIn] at hRun
  have hStep := step_bare strip hBare
  rcases report_spec func reported (step buf strip itr).1 with ⟨made, hPrefix, hReported, -, hSome⟩
  have hMade : token .processing (itr + 2) (itr + 1) ∈ made := by
    rw [hStep] at hPrefix hSome
    have hNe := hSome (cons_ne_nil _ _)
    rcases exists_cons_of_ne_nil hNe with ⟨t, made', rfl⟩
    rw [cons_prefix_cons] at hPrefix
    rw [hPrefix.1]
    exact mem_cons_self
  have hMem : token .processing (itr + 2) (itr + 1) ∈ all := by
    rw [hReported, hStep] at hRun
    dsimp only at hRun
    cases hOk : (report func reported [token .processing (itr + 2) (itr + 1)]).2 with
    | false =>
      rw [hOk] at hRun
      cases hRun
      exact mem_append_right _ hMade
    | true =>
      rw [hOk] at hRun
      dsimp only at hRun
      have hNext : itr + 3 ≤ buf.length := charAt_lt hBare.2.2
      have hLeft : buf.length - (itr + 3) ≤ rounds := by omega
      rcases parseFrom_spec func strip (reported ++ made)
          hBound hNext hLeft with ⟨ok', tokens, hRest, -⟩
      rw [hRest] at hRun
      cases hRun
      exact mem_append_left _ (mem_append_right _ hMade)
  have hPlace := (hBetween.1 _ hMem).2
  have hLength : (token .processing (itr + 2) (itr + 1)).length =
      4294967295 := by
    show ((((itr + 1 : Nat) : Int) - ((itr + 2 : Nat) : Int)) % 4294967296).toNat = 4294967295
    rw [show ((itr + 1 : Nat) : Int) - ((itr + 2 : Nat) : Int) = -1 by omega]
    rfl
  have hPlace : itr + 2 + 4294967295 ≤ buf.length := by
    rw [hLength] at hPlace
    exact hPlace
  omega

/- `<a>b</a>`, with a callback that always answers yes -/
def sampleBuf : List Byte :=
  [0x3c, 0x61, 0x3e, 0x62, 0x3c, 0x2f, 0x61, 0x3e]

end Efl.Eina.SimpleXml
