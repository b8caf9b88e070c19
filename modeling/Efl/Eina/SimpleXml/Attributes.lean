import Efl.Eina.SimpleXml.Tree

/-
  The attributes of a buffer that ends where it ends: what is
  left of the buffer is a list, and a byte behind it is no
  byte that can be read.

  Main declarations:
    * `memchr`, `round`, `parse`
    * `Reached`, `EmptyKey`, `OpenQuote`
    * `round_spec`
    * `attributes_iff`
-/

---
-- Rounds
---

namespace Efl.Eina.SimpleXml.Attributes

open Bytes List

/-
  `memchr` in what is left of the buffer; `none` is a read
  behind its end.
-/
def memchr (c : Byte) : Nat → List Byte → Option (Option Nat)
  | 0, _ => some none
  | _ + 1, [] => none
  | n + 1, b :: bs =>
    if b = c then some (some 0)
    else (memchr c n bs).map (·.map (· + 1))

/- How a round ends; one that is skipped starts again. -/
inductive Round where
  | returned (ok : Bool)
  | skipped
  | found (key value rest : List Byte)

def keyChar (c : Byte) : Bool :=
  !(c = 0x3d || isspace c)

/- What is left behind the `=` of a key, from its end on -/
def behindEquals : List Byte → Option (Option (List Byte))
  | [] => some none
  | c :: rest =>
    if c = 0x3d then
      some (some rest)
    else
      (memchr 0x3d (rest.length + 1) (c :: rest)).map
        (·.map fun i => rest.drop i)

/- The value and what the next round starts with -/
def valueRound (key : List Byte) : List Byte → Option Round
  | [] => some (.returned false)
  | q :: rest =>
    if q = 0x22 ∨ q = 0x27 then
      (memchr q (rest.length + 1) rest).map fun
        | none => .returned false
        | some i => .found key (rest.take i) (rest.drop (i + 1))
    else
      let value := (q :: rest).takeWhile (!isspace ·)
      some (.found key value ((q :: rest).drop (value.length + 1)))

/- A round of `eina_simple_xml_attributes_parse` to the call -/
def round (rest : List Byte) : Option Round :=
  let p := rest.dropWhile isspace
  if p = [] then
    some (.returned true)
  else
    let key := p.takeWhile keyChar
    let keyEnd := p.dropWhile keyChar
    if keyEnd = [] then
      some (.returned false)
    else if key = [] then
      some .skipped
    else do
      match ← behindEquals keyEnd with
      | none => some (.returned false)
      | some value => valueRound key (value.dropWhile isspace)

/-
  `eina_simple_xml_attributes_parse` for a number of rounds,
  with a callback that knows all that it was called with; the
  outer `none` is an access behind the buffer or behind
  `tmpbuf`.
-/
def parse (func : List Attribute → Bool) (buflen : Nat) : Nat → List Byte → List Attribute →
      Option (Option (Bool × List Attribute))
  | _, [], calls => some (some (true, calls))
  | 0, _ :: _, _ => some none
  | rounds + 1, c :: cs, calls => do
    match ← round (c :: cs) with
    | .returned ok => some (some (ok, calls))
    | .skipped => parse func buflen rounds (c :: cs) calls
    | .found key value rest =>
      if buflen + 1 < key.length + 1 + value.length + 1 then
        none
      else
        let calls := calls ++ [⟨CStr.text key, CStr.text value⟩]
        if func calls then
          parse func buflen rounds rest calls
        else
          some (some (false, calls))

---
-- Conditions
---

/- What the rounds start with, and the calls before them -/
inductive Reached (func : List Attribute → Bool) (buf : List Byte) :
    List Byte → List Attribute → Prop
  | start : Reached func buf buf []
  | next {rest key value rest' : List Byte} {calls : List Attribute}
      (hReached : Reached func buf rest calls)
      (hRound : round rest = some (.found key value rest'))
      (hFunc : func
        (calls ++ [⟨CStr.text key, CStr.text value⟩]) = true) :
      Reached func buf rest'
        (calls ++ [⟨CStr.text key, CStr.text value⟩])

/- Nothing stands before an equals sign. -/
def EmptyKey (rest : List Byte) : Prop :=
  ∃ spaces behind, rest = spaces ++ 0x3d :: behind ∧
    ∀ c ∈ spaces, isspace c = true

/- A key, the equals sign, and what is behind the spaces -/
inductive Begins (key behind : List Byte) : List Byte → Prop
  | intro {spaces gap spaces' : List Byte}
      (hSpaces : ∀ c ∈ spaces, isspace c = true)
      (hNe : key ≠ []) (hKey : ∀ c ∈ key, keyChar c = true)
      (hGap : ∀ c ∈ gap.head?, isspace c = true) (hNone : 0x3d ∉ gap)
      (hSpaces' : ∀ c ∈ spaces', isspace c = true)
      (hBehind : ∀ c ∈ behind.head?, isspace c = false) :
      Begins key behind
        (spaces ++ (key ++ (gap ++ 0x3d :: (spaces' ++ behind))))

/- The quote before a value has no other one behind it. -/
def OpenQuote (rest : List Byte) : Prop :=
  ∃ key q behind, Begins key (q :: behind) rest ∧
    (q = 0x22 ∨ q = 0x27) ∧ q ∉ behind

/- The function returns, with no access out of its buffers. -/
def Ends (func : List Attribute → Bool) (buflen : Nat)
    (rest : List Byte) (calls : List Attribute) : Prop :=
  ∃ rounds ok calls',
    parse func buflen rounds rest calls = some (some (ok, calls'))

/- Pairs of C strings that can be rendered with a quote -/
structure Rendered where
  quote : Byte
  pairs : List Attribute
  isQuote : quote = 0x22 ∨ quote = 0x27
  keys : ∀ a ∈ pairs, ∀ c ∈ a.key, c ≠ 0 ∧ keyChar c = true
  values : ∀ a ∈ pairs, ∀ c ∈ a.value, c ≠ 0 ∧ c ≠ quote

def pair (quote : Byte) (a : Attribute) : List Byte :=
  a.key ++ 0x3d :: quote :: (a.value ++ [quote])

def render (quote : Byte) : List Attribute → List Byte
  | [] => []
  | a :: as => pair quote a ++ as.flatMap fun b => 0x20 :: pair quote b

/- The calls are those of the pairs, in their order. -/
def Rendered.Reported (r : Rendered) : Prop :=
  ∃ rounds, parse (fun _ => true) (render r.quote r.pairs).length
    rounds (render r.quote r.pairs) [] = some (some (true, r.pairs))

---
-- Scans
---

variable {c q : Byte} {rest rest' key value behind : List Byte}

/- The rest of the bytes to look at is behind the buffer. -/
theorem memchr_eq (c : Byte) (bs : List Byte) (n : Nat) :
    memchr c (bs.length + n) bs =
      if c ∈ bs then some (some (bs.idxOf c)) else memchr c n [] := by
  induction bs with
  | nil => simp
  | cons b bs ih =>
    rw [length_cons, Nat.succ_add, memchr, ih]
    by_cases hEq : b = c
    · simp [hEq]
    · by_cases hMem : c ∈ bs
      · simp [hEq, Ne.symm hEq, hMem, idxOf_cons_ne]
      · cases n <;> simp [hEq, Ne.symm hEq, hMem, memchr]

theorem memchr_in (c : Byte) (bs : List Byte) :
    memchr c bs.length bs = some (if c ∈ bs then some (bs.idxOf c) else none) := by
  rw [← Nat.add_zero bs.length, memchr_eq]
  split <;> rfl

theorem while_front {p : Byte → Bool} {front : List Byte} (hFront : ∀ c ∈ front, p c = true)
    (hRest : ∀ c ∈ rest.head?, p c = false) :
    (front ++ rest).dropWhile p = rest ∧ (front ++ rest).takeWhile p = front := by
  rw [dropWhile_append_of_pos hFront, takeWhile_append_of_pos hFront]
  cases rest with
  | nil => simp
  | cons c cs =>
    have hStop := hRest c rfl
    simp [hStop]

theorem keyChar_eq_false : keyChar c = false ↔ c = 0x3d ∨ isspace c = true := by
  simp only [keyChar, Bool.not_eq_false', Bool.or_eq_true, decide_eq_true_eq]

theorem behindEquals_gap {gap : List Byte} (hNone : 0x3d ∉ gap)
    (value : List Byte) : behindEquals (gap ++ 0x3d :: value) = some (some value) := by
  cases gap with
  | nil => rfl
  | cons c gap =>
    have hNe : c ≠ 0x3d := fun hEq => hNone (by simp [hEq])
    rw [cons_append, behindEquals, if_neg hNe, ← length_cons,
      memchr_in, if_pos (by simp), ← cons_append, idxOf_append_of_notMem hNone]
    simp

theorem behindEquals_none (hNe : rest ≠ []) (hNone : 0x3d ∉ rest) :
    behindEquals rest = some none := by
  cases rest with
  | nil => exact absurd rfl hNe
  | cons c rest =>
    have hChar : c ≠ 0x3d := fun hEq => hNone (by simp [hEq])
    rw [behindEquals, if_neg hChar, ← length_cons, memchr_in, if_neg hNone]
    rfl

theorem head?_dropWhile_eq_false (p : Byte → Bool) (rest : List Byte) (c : Byte)
    (hHead : c ∈ (rest.dropWhile p).head?) : p c = false := by
  have hNot := head?_dropWhile_not p rest
  rw [Option.mem_def.mp hHead] at hNot
  exact hNot

---
-- What a Round Does
---

theorem round_begins (hBegins : Begins key behind rest) : round rest = valueRound key behind := by
  cases hBegins with
  | @intro spaces gap spaces' hSpaces hNe hKey hGap hNone hSpaces'
      hBehind =>
    have hEnd : ∀ c ∈ (gap ++ 0x3d :: (spaces' ++ behind)).head?, keyChar c = false := by
      intro c hc
      rw [keyChar_eq_false]
      cases gap with
      | nil => exact .inl (by simpa using hc.symm)
      | cons d gap => exact .inr (hGap c hc)
    have hFirst : ∀ c ∈ (key ++ (gap ++ 0x3d :: (spaces' ++ behind))).head?, isspace c = false := by
      intro c hc
      cases key with
      | nil => exact absurd rfl hNe
      | cons d key =>
        have hChar := hKey c (by simp at hc ⊢; exact .inl hc.symm)
        unfold keyChar at hChar
        simp at hChar
        exact hChar.2
    unfold round
    simp only [(while_front hSpaces hFirst).1,
      (while_front hKey hEnd).1, (while_front hKey hEnd).2, behindEquals_gap hNone]
    simp [hNe, (while_front hSpaces' hBehind).1]

theorem round_emptyKey (hEmpty : EmptyKey rest) : round rest = some .skipped := by
  rcases hEmpty with ⟨spaces, behind, rfl, hSpaces⟩
  unfold round
  have hStop : ∀ c ∈ (0x3d :: behind).head?, isspace c = false := by
    rintro c ⟨⟩
    decide
  simp only [(while_front hSpaces hStop).1]
  simp [keyChar]

/- Where a round does not return at once -/
theorem round_cases (rest : List Byte) :
    (∃ ok, round rest = some (.returned ok)) ∨ EmptyKey rest ∨
      ∃ key q behind, Begins key (q :: behind) rest := by
  have hSpaces (c : Byte) (hc : c ∈ rest.takeWhile isspace) :
      isspace c = true := mem_takeWhile_imp hc
  have hKeyEnd := head?_dropWhile_eq_false keyChar (rest.dropWhile isspace)
  have hKey (c : Byte)
      (hc : c ∈ (rest.dropWhile isspace).takeWhile keyChar) :
      keyChar c = true := mem_takeWhile_imp hc
  have hFirst := head?_dropWhile_eq_false isspace rest
  have hRest := takeWhile_append_dropWhile (p := isspace) (l := rest)
  unfold round
  generalize rest.takeWhile isspace = spaces at *
  generalize rest.dropWhile isspace = p at *
  have hSplit := takeWhile_append_dropWhile (p := keyChar) (l := p)
  dsimp only
  generalize p.takeWhile keyChar = key at *
  generalize p.dropWhile keyChar = keyEnd at *
  subst hSplit hRest
  by_cases hNone : key ++ keyEnd = []
  · exact .inl ⟨true, if_pos hNone⟩
  by_cases hEnd : keyEnd = []
  · exact .inl ⟨false, by rw [if_neg hNone, if_pos hEnd]⟩
  rw [if_neg hNone, if_neg hEnd]
  rcases exists_cons_of_ne_nil hEnd with ⟨c, cs, rfl⟩
  have hStop := keyChar_eq_false.mp (hKeyEnd c rfl)
  by_cases hNe : key = []
  · subst hNe
    have hNoSpace : isspace c = false := hFirst c rfl
    obtain rfl := hStop.resolve_right (by simp [hNoSpace])
    exact .inr (.inl ⟨spaces, cs, rfl, hSpaces⟩)
  rw [if_neg hNe]
  by_cases hMem : 0x3d ∈ c :: cs
  · rcases eq_append_cons_of_mem hMem with ⟨gap, value, hGap, hOut⟩
    rw [hGap, behindEquals_gap hOut]
    cases hValue : value.dropWhile isspace with
    | nil => exact .inl ⟨false, by simp [hValue, valueRound]⟩
    | cons q behind =>
      refine .inr (.inr ⟨key, q, behind, ?_⟩)
      have hBehind := head?_dropWhile_eq_false isspace value
      rw [← takeWhile_append_dropWhile (p := isspace) (l := value), hValue]
      rw [hValue] at hBehind
      refine .intro hSpaces hNe hKey ?_ hOut (fun _ hc => mem_takeWhile_imp hc) hBehind
      intro d hd
      cases gap with
      | nil => exact nomatch hd
      | cons g gap =>
        obtain rfl : c = g := (cons.inj hGap).1
        obtain rfl : c = d := by simpa using hd
        exact hStop.resolve_left fun hEq => hOut (by simp [hEq])
  · rw [behindEquals_none hEnd hMem]
    exact .inl ⟨false, rfl⟩

theorem valueRound_eq_none :
    valueRound key (q :: behind) = none ↔ (q = 0x22 ∨ q = 0x27) ∧ q ∉ behind := by
  rw [valueRound]
  split
  case isTrue hQuote =>
    rw [memchr_eq, Option.map_eq_none_iff, and_iff_right hQuote]
    by_cases hMem : q ∈ behind <;> simp [hMem, memchr]
  case isFalse hQuote =>
    exact iff_of_false nofun fun hBoth => hQuote hBoth.1

theorem Begins.length_le (hBegins : Begins key behind rest) :
    key.length + 1 + behind.length ≤ rest.length := by
  cases hBegins
  simp only [length_append, length_cons]
  omega

/- A pair has room in `tmpbuf`, and less of the buffer is left. -/
def Fits (key value rest rest' : List Byte) : Prop :=
  key.length + value.length + 1 ≤ rest.length ∧
    rest'.length < rest.length

theorem valueRound_spec (hBegins : Begins key (q :: behind) rest) :
    valueRound key (q :: behind) = none ∨ ∃ value rest',
      valueRound key (q :: behind) = some (.found key value rest') ∧ Fits key value rest rest' := by
  have hLength := hBegins.length_le
  unfold Fits
  rw [length_cons] at hLength
  rw [valueRound]
  split
  case isTrue =>
    rw [memchr_eq]
    split
    case isFalse => exact .inl rfl
    case isTrue hMem =>
      refine .inr ⟨_, _, rfl, ?_, ?_⟩
      · rw [length_take]
        omega
      · rw [length_drop]
        omega
  case isFalse =>
    have hValue := (List.takeWhile_prefix (!isspace ·) (l := q :: behind)).length_le
    rw [length_cons] at hValue
    refine .inr ⟨_, _, rfl, ?_, ?_⟩
    · omega
    · rw [length_drop, length_cons]
      omega

/- What a round is, and what the buffer is then -/
theorem round_spec (rest : List Byte) :
    (∃ ok, round rest = some (.returned ok)) ∨
      (round rest = some .skipped ∧ EmptyKey rest) ∨
      (round rest = none ∧ OpenQuote rest) ∨
      ∃ key value rest', round rest = some (.found key value rest') ∧
        Fits key value rest rest' := by
  rcases round_cases rest with hOk | hEmpty | ⟨key, q, behind, hBegins⟩
  · exact .inl hOk
  · exact .inr (.inl ⟨round_emptyKey hEmpty, hEmpty⟩)
  · rw [round_begins hBegins]
    rcases valueRound_spec hBegins with hNone | ⟨value, rest', hFound, hFits⟩
    · exact .inr (.inr (.inl ⟨hNone, key, q, behind, hBegins, valueRound_eq_none.mp hNone⟩))
    · exact .inr (.inr (.inr ⟨_, _, _, hFound, hFits⟩))

theorem round_openQuote (hOpen : OpenQuote rest) : round rest = none := by
  rcases hOpen with ⟨key, q, behind, hBegins, hQuote⟩
  rw [round_begins hBegins]
  exact valueRound_eq_none.mpr hQuote

variable (hRound : round rest = some (.found key value rest'))

include hRound

theorem fits_of_round : Fits key value rest rest' := by
  rcases round_spec rest with ⟨ok, hOk⟩ | ⟨hSkip, -⟩ | ⟨hNone, -⟩ | ⟨_, _, _, hFound, hFits⟩
  · exact nomatch hRound.symm.trans hOk
  · exact nomatch hRound.symm.trans hSkip
  · exact nomatch hRound.symm.trans hNone
  · cases hRound.symm.trans hFound
    exact hFits

---
-- Calls
---

variable {func : List Attribute → Bool} {buf : List Byte}
  {buflen : Nat} {calls : List Attribute}

theorem ne_nil_of_found : rest ≠ [] := by
  rintro rfl
  exact nomatch hRound

omit hRound in
theorem parse_succ (hNe : rest ≠ []) (rounds : Nat) :
    parse func buflen (rounds + 1) rest calls =
      (round rest).bind fun
        | .returned ok => some (some (ok, calls))
        | .skipped => parse func buflen rounds rest calls
        | .found key value rest =>
          if buflen + 1 < key.length + 1 + value.length + 1 then
            none
          else
            let calls := calls ++ [⟨CStr.text key, CStr.text value⟩]
            if func calls then
              parse func buflen rounds rest calls
            else
              some (some (false, calls)) := by
  cases rest with
  | nil => exact absurd rfl hNe
  | cons c cs => rfl

omit hRound in
theorem parse_zero (hNe : rest ≠ []) : parse func buflen 0 rest calls = some none := by
  cases rest with
  | nil => exact absurd rfl hNe
  | cons c cs => rfl

/- The round of a pair -/
theorem parse_found
    (hLength : rest.length ≤ buflen) (hFunc : func
      (calls ++ [⟨CStr.text key, CStr.text value⟩]) = true)
    (rounds : Nat) :
    parse func buflen (rounds + 1) rest calls =
      parse func buflen rounds rest' (calls ++ [⟨CStr.text key, CStr.text value⟩]) := by
  have hFits := (fits_of_round hRound).1
  rw [parse_succ (ne_nil_of_found hRound), hRound]
  dsimp only [Option.bind_some]
  rw [if_neg (by omega), if_pos hFunc]

omit hRound

theorem Ends.found (hEnds : Ends func buflen rest calls)
    (hRound : round rest = some (.found key value rest'))
    (hLength : rest.length ≤ buflen) (hFunc : func
      (calls ++ [⟨CStr.text key, CStr.text value⟩]) = true) :
    Ends func buflen rest' (calls ++ [⟨CStr.text key, CStr.text value⟩]) := by
  rcases hEnds with ⟨rounds, ok, calls', hParse⟩
  cases rounds with
  | zero =>
    rw [parse_zero (ne_nil_of_found hRound)] at hParse
    exact nomatch hParse
  | succ rounds =>
    rw [parse_found hRound hLength hFunc] at hParse
    exact ⟨rounds, ok, calls', hParse⟩

/- The loop does not leave an empty key. -/
theorem not_ends_emptyKey (hEmpty : EmptyKey rest) : ¬ Ends func buflen rest calls := by
  have hRound := round_emptyKey hEmpty
  have hNe : rest ≠ [] := by
    rintro rfl
    exact nomatch hRound
  rintro ⟨rounds, ok, calls', hParse⟩
  have hNever : parse func buflen rounds rest calls = some none := by
    induction rounds with
    | zero => exact parse_zero hNe
    | succ rounds ih =>
      rw [parse_succ hNe, hRound] at hParse ⊢
      exact ih hParse
  exact nomatch hNever.symm.trans hParse

theorem not_ends_openQuote (hOpen : OpenQuote rest) : ¬ Ends func buflen rest calls := by
  have hRound := round_openQuote hOpen
  have hNe : rest ≠ [] := by
    rintro rfl
    exact nomatch hRound
  rintro ⟨rounds, ok, calls', hParse⟩
  cases rounds with
  | zero => exact nomatch (parse_zero hNe).symm.trans hParse
  | succ rounds =>
    rw [parse_succ hNe, hRound] at hParse
    exact nomatch hParse

theorem Reached.length_le (hReached : Reached func buf rest calls) : rest.length ≤ buf.length := by
  induction hReached with
  | start => exact Nat.le_refl _
  | next _ hRound _ ih => exact (fits_of_round hRound).2.le.trans ih

theorem Reached.ends (hReached : Reached func buf rest calls)
    (hEnds : Ends func buf.length buf []) : Ends func buf.length rest calls := by
  induction hReached with
  | start => exact hEnds
  | next hBefore hRound hFunc ih =>
    exact ih.found hRound hBefore.length_le hFunc

/- From what is reached on, each round leaves less. -/
theorem ends_of_reached {rest : List Byte} {calls : List Attribute}
    (hReached : Reached func buf rest calls)
    (hOk : ∀ rest calls, Reached func buf rest calls →
      ¬ EmptyKey rest ∧ ¬ OpenQuote rest) : Ends func buf.length rest calls := by
  by_cases hNe : rest = []
  · subst hNe
    exact ⟨0, true, calls, by unfold parse; rfl⟩
  rcases round_spec rest with
    ⟨ok, hRound⟩ | ⟨-, hEmpty⟩ | ⟨-, hOpen⟩ | ⟨key, value, rest', hRound, hFits⟩
  · refine ⟨1, ok, calls, ?_⟩
    rw [parse_succ hNe, hRound]
    rfl
  · exact absurd hEmpty (hOk _ _ hReached).1
  · exact absurd hOpen (hOk _ _ hReached).2
  · have hLength := hReached.length_le
    by_cases hFunc : func (calls ++ [⟨CStr.text key, CStr.text value⟩]) = true
    · have hLess := hFits.2
      rcases ends_of_reached (hReached.next hRound hFunc) hOk with ⟨rounds, ok, calls', hParse⟩
      refine ⟨rounds + 1, ok, calls', ?_⟩
      rw [parse_found hRound hLength hFunc]
      exact hParse
    · refine ⟨1, false, calls ++ [⟨CStr.text key, CStr.text value⟩], ?_⟩
      rw [parse_succ hNe, hRound]
      dsimp only [Option.bind_some]
      rw [if_neg (by have hRoom := hFits.1; omega), if_neg hFunc]
termination_by rest.length

theorem ends_iff (func : List Attribute → Bool) (buf : List Byte) :
    Ends func buf.length buf [] ↔
      ∀ rest calls, Reached func buf rest calls →
        ¬ EmptyKey rest ∧ ¬ OpenQuote rest :=
  ⟨fun hEnds _ _ hReached =>
    have hHere := hReached.ends hEnds
    ⟨fun hEmpty => not_ends_emptyKey hEmpty hHere, fun hOpen => not_ends_openQuote hOpen hHere⟩,
    ends_of_reached .start⟩

---
-- Rendered Pairs
---

variable {r : Rendered} {a : Attribute} {spaces more : List Byte}

theorem Rendered.text (ha : a ∈ r.pairs) :
    (⟨CStr.text a.key, CStr.text a.value⟩ : Attribute) = a := by
  have hKey : CStr.text a.key = a.key :=
    takeWhile_eq_self_iff.mpr fun c hc =>
      decide_eq_true (r.keys a ha c hc).1
  have hValue : CStr.text a.value = a.value :=
    takeWhile_eq_self_iff.mpr fun c hc =>
      decide_eq_true (r.values a ha c hc).1
  rw [hKey, hValue]

/- The round that finds a pair, behind spaces -/
theorem round_pair (ha : a ∈ r.pairs) (hNe : a.key ≠ [])
    (hSpaces : ∀ c ∈ spaces, isspace c = true) (more : List Byte) :
    round (spaces ++ (pair r.quote a ++ more)) = some (.found a.key a.value more) := by
  have hQuote : isspace r.quote = false := by
    rcases r.isQuote with hEq | hEq <;> rw [hEq] <;> decide
  have hOut : r.quote ∉ a.value := fun hMem =>
    (r.values a ha _ hMem).2 rfl
  have hBegins : Begins a.key (r.quote :: (a.value ++ r.quote :: more))
      (spaces ++ (pair r.quote a ++ more)) := by
    have hIntro : Begins a.key (r.quote :: (a.value ++ r.quote :: more))
        (spaces ++ (a.key ++ ([] ++ 0x3d :: ([] ++ r.quote :: (a.value ++ r.quote :: more))))) :=
      .intro hSpaces hNe (fun c hc => (r.keys a ha c hc).2)
        nofun nofun nofun (by simpa using hQuote)
    simpa [pair] using hIntro
  rw [round_begins hBegins, valueRound, if_pos r.isQuote,
    memchr_eq, if_pos (by simp), idxOf_append_of_notMem hOut]
  simp

theorem emptyKey_pair (hKey : a.key = [])
    (hSpaces : ∀ c ∈ spaces, isspace c = true) (quote : Byte) :
    EmptyKey (spaces ++ (pair quote a ++ more)) :=
  ⟨spaces, quote :: (a.value ++ quote :: more), by simp [pair, hKey], hSpaces⟩

/- The pairs behind the first one -/
def others (quote : Byte) (as : List Attribute) : List Byte :=
  as.flatMap fun b => 0x20 :: pair quote b

theorem space_is : ∀ c ∈ [(0x20 : Byte)], isspace c = true := by
  decide

theorem others_cons (quote : Byte) (a : Attribute)
    (as : List Attribute) : others quote (a :: as) = [0x20] ++ (pair quote a ++ others quote as) :=
  flatMap_cons

theorem parse_others {as : List Attribute} {n : Nat}
    (hAs : ∀ a ∈ as, a ∈ r.pairs) (hKeys : ∀ a ∈ as, a.key ≠ [])
    (hLength : (others r.quote as).length ≤ n) :
    parse (fun _ => true) n as.length (others r.quote as) calls =
      some (some (true, calls ++ as)) := by
  induction as generalizing calls with
  | nil =>
    rw [append_nil]
    rfl
  | cons a as ih =>
    rw [others_cons] at hLength ⊢
    have ha := hAs a mem_cons_self
    have hRound := round_pair ha (hKeys a mem_cons_self) space_is (others r.quote as)
    rw [length_cons, parse_found hRound hLength rfl, Rendered.text ha,
      ih (fun b hb => hAs b (mem_cons_of_mem _ hb)) (fun b hb => hKeys b (mem_cons_of_mem _ hb))
        ((fits_of_round hRound).2.le.trans hLength), append_assoc, singleton_append]

/- Where the function returns, no key of the pairs is empty. -/
theorem keys_of_ends {as : List Attribute} {n : Nat}
    (hAs : ∀ a ∈ as, a ∈ r.pairs) (hLength : (others r.quote as).length ≤ n)
    (hEnds : Ends (fun _ => true) n (others r.quote as) calls) : ∀ a ∈ as, a.key ≠ [] := by
  induction as generalizing calls with
  | nil => exact nofun
  | cons a as ih =>
    rw [others_cons] at hLength hEnds
    have hKey : a.key ≠ [] := fun hNil =>
      not_ends_emptyKey (emptyKey_pair hNil space_is _) hEnds
    have hRound := round_pair (hAs a mem_cons_self) hKey space_is (others r.quote as)
    rw [forall_mem_cons]
    exact ⟨hKey, ih (fun b hb => hAs b (mem_cons_of_mem _ hb))
      ((fits_of_round hRound).2.le.trans hLength) (hEnds.found hRound hLength rfl)⟩

theorem Rendered.reported_iff (r : Rendered) : r.Reported ↔ ∀ a ∈ r.pairs, a.key ≠ [] := by
  unfold Rendered.Reported
  cases hPairs : r.pairs with
  | nil => exact iff_of_true ⟨0, rfl⟩ nofun
  | cons a as =>
    have hAs (b : Attribute) (hb : b ∈ a :: as) : b ∈ r.pairs := hPairs ▸ hb
    have ha := hAs a mem_cons_self
    have hNil : ∀ c ∈ ([] : List Byte), isspace c = true := nofun
    have hRest (b : Attribute) (hb : b ∈ as) : b ∈ r.pairs := hAs b (mem_cons_of_mem _ hb)
    change (∃ rounds, parse _ ([] ++ (pair r.quote a ++
      others r.quote as)).length rounds ([] ++ (pair r.quote a ++ others r.quote as)) [] = _) ↔ _
    rw [forall_mem_cons]
    constructor
    · rintro ⟨rounds, hParse⟩
      have hEnds : Ends _ _ _ _ := ⟨rounds, _, _, hParse⟩
      have hKey : a.key ≠ [] := fun hEmpty =>
        not_ends_emptyKey (emptyKey_pair hEmpty hNil _) hEnds
      have hRound := round_pair ha hKey hNil (others r.quote as)
      exact ⟨hKey, keys_of_ends hRest (fits_of_round hRound).2.le
        (hEnds.found hRound (Nat.le_refl _) rfl)⟩
    · rintro ⟨hKey, hKeys⟩
      have hRound := round_pair ha hKey hNil (others r.quote as)
      refine ⟨as.length + 1, ?_⟩
      rw [parse_found hRound (Nat.le_refl _) rfl, Rendered.text ha,
        parse_others hRest hKeys (fits_of_round hRound).2.le]
      rfl

/-
  The function returns and stays in its buffers just if no
  round starts with an empty key or with a quote that is not
  closed; and pairs are reported as they were rendered just if
  no key is empty.
-/
theorem attributes_iff (func : List Attribute → Bool)
    (buf : List Byte) (r : Rendered) :
    (Ends func buf.length buf [] ↔
      ∀ rest calls, Reached func buf rest calls →
        ¬ EmptyKey rest ∧ ¬ OpenQuote rest) ∧
      (r.Reported ↔ ∀ a ∈ r.pairs, a.key ≠ []) :=
  ⟨ends_iff func buf, r.reported_iff⟩

/- An equals sign alone keeps the function in its loop. -/
theorem equals_never_ends :
    ¬ Ends (fun _ => true) 1 [0x3d] [] :=
  not_ends_emptyKey ⟨[], [], rfl, nofun⟩

end Efl.Eina.SimpleXml.Attributes
