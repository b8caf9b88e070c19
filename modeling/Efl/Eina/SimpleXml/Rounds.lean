import Efl.Eina.SimpleXml.Pieces
import Mathlib.Data.List.TakeWhile

/-
  The rounds of the parser at what is dumped of a well-formed
  tree.  The text of a comment or a processing node of one byte
  keeps a space, which the strip leaves.

  Main declarations:
    * `Node.WellFormed`
    * `tagBody`, `padded`
    * `tagParse_of`
    * `step_opening`, `step_close`
-/

---
-- Well-Formed Trees
---

namespace Efl.Eina.SimpleXml

open Bytes

/- `isalnum` in the C locale -/
def isalnum (c : Byte) : Bool :=
  (0x30 ≤ c.toNat ∧ c.toNat ≤ 0x39) ∨
    (0x41 ≤ c.toNat ∧ c.toNat ≤ 0x5a) ∨
    (0x61 ≤ c.toNat ∧ c.toNat ≤ 0x7a)

/- A name or a key -/
structure IsName (name : List Byte) : Prop where
  nonempty : name ≠ []
  alnum : ∀ c ∈ name, isalnum c = true

structure Attribute.WellFormed (a : Attribute) : Prop where
  key : IsName a.key
  value : ∀ c ∈ a.value, c ≠ 0x22 ∧ c ≠ 0

/- A text that is not empty and has no spaces at its ends -/
structure IsTrimmed (text : List Byte) : Prop where
  nonempty : text ≠ []
  first : ∀ c ∈ text.head?, isspace c = false
  last : ∀ c ∈ text.getLast?, isspace c = false

/- What a text of a kind is made of -/
def DataKind.WellFormed (text : List Byte) : DataKind → Prop
  | .data => 0x3c ∉ text
  | .comment => ¬ [0x2d, 0x2d] <:+: text
  | .processing => ∀ c ∈ text,
      c ≠ 0x3c ∧ c ≠ 0x3e ∧ c ≠ 0x3f ∧ c ≠ 0x22
  | _ => False

def Node.isData : Node → Bool
  | .data .data _ => true
  | _ => false

mutual

def Node.WellFormed : Node → Prop
  | .tag name attributes children =>
    IsName name ∧ (∀ a ∈ attributes, a.WellFormed) ∧
      NodesWellFormed children
  | .data kind text => IsTrimmed text ∧ kind.WellFormed text

/- No two data nodes are adjacent. -/
def NodesWellFormed : List Node → Prop
  | [] => True
  | node :: nodes =>
    node.WellFormed ∧
      (∀ next ∈ nodes.head?,
        node.isData = true → next.isData = false) ∧
      NodesWellFormed nodes

end

---
-- Bytes of Names
---

open List Option

theorem isspace_of_isalnum {c : Byte} (hAlnum : isalnum c = true) : isspace c = false := by
  unfold isalnum at hAlnum
  unfold isspace
  rw [decide_eq_true_eq] at hAlnum
  rw [decide_eq_false_iff_not]
  rintro (rfl | hRange)
  · revert hAlnum
    decide
  · omega

/- A byte that is none of a name's is not in it. -/
theorem ne_of_isalnum {c d : Byte} (hAlnum : isalnum c = true)
    (hOther : isalnum d = false := by decide) : c ≠ d := by
  rintro rfl
  exact nomatch hAlnum.symm.trans hOther

theorem text_of_noNul {s : List Byte} (hNoNul : ∀ c ∈ s, c ≠ 0) : CStr.text s = s := by
  unfold CStr.text
  rw [takeWhile_eq_self_iff]
  exact fun c hC => decide_eq_true (hNoNul c hC)

variable {name : List Byte}

theorem IsName.text (hName : IsName name) : CStr.text name = name :=
  text_of_noNul fun _ hC => ne_of_isalnum (hName.alnum _ hC)

theorem IsName.zero_notMem (hName : IsName name) : 0 ∉ name :=
  fun hMem => nomatch hName.alnum 0 hMem

theorem IsName.length_pos (hName : IsName name) : 0 < name.length :=
  length_pos_of_ne_nil hName.nonempty

variable {k : Nat}

theorem IsName.get (hName : IsName name) (hLess : k < name.length) :
    ∃ c, name[k]? = some c ∧ isalnum c = true :=
  ⟨name[k], getElem?_eq_getElem hLess, hName.alnum _ (getElem_mem hLess)⟩

/- Where a name is, there is no space and no other byte. -/
theorem IsName.spaceAt {name : List Byte} (hName : IsName name)
    {buf : List Byte} {i : Nat} (hHas : Has buf i name)
    {k : Nat} (hLess : k < name.length) : spaceAt buf (i + k) = false := by
  rcases hName.get hLess with ⟨c, hGet, hAlnum⟩
  rw [hHas.spaceAt hLess, hGet, any_some, isspace_of_isalnum hAlnum]

variable {buf : List Byte} {i : Nat}

theorem IsName.charAt (hName : IsName name) (hHas : Has buf i name)
    (hLess : k < name.length) {d : Byte}
    (hOther : isalnum d = false := by decide) : charAt buf (i + k) d = false := by
  rcases hName.get hLess with ⟨c, hGet, hAlnum⟩
  rw [hHas.charAt hLess, hGet, decide_eq_false_iff_not, Option.some.injEq]
  exact ne_of_isalnum hAlnum hOther

theorem IsName.quoteState (hName : IsName name) : quoteState false name = some false :=
  quoteState_plain fun c hC =>
    have hAlnum := hName.alnum c hC
    ⟨ne_of_isalnum hAlnum, ne_of_isalnum hAlnum, ne_of_isalnum hAlnum⟩

---
-- Attributes
---

/- What follows the space in ` key="value"` -/
def Attribute.pair (a : Attribute) : List Byte :=
  a.key ++ [0x3d, 0x22] ++ a.value ++ [0x22]

theorem Attribute.dump_eq (a : Attribute) : a.dump = 0x20 :: a.pair := by
  unfold Attribute.dump Attribute.pair
  simp only [append_assoc, cons_append, nil_append]

theorem Attribute.length_pair (a : Attribute) :
    a.pair.length = a.key.length + a.value.length + 3 := by
  unfold Attribute.pair
  simp only [length_append, length_cons, length_nil]
  omega

theorem attributesDump_cons
    (a : Attribute) (attributes : List Attribute) :
    attributesDump (a :: attributes) = a.dump ++ attributesDump attributes := rfl

theorem attributesDump_length (attributes : List Attribute) :
    attributes.length ≤ (attributesDump attributes).length := by
  induction attributes with
  | nil => exact Nat.le_refl _
  | cons a attributes ih =>
    rw [attributesDump_cons, a.dump_eq, length_append, length_cons, length_cons]
    omega

/- The round that finds an attribute -/
theorem attributesFrom_round {itr key last rounds : Nat}
    {found : List Attribute} {a : Attribute} (hWell : a.WellFormed)
    (hItr : itr < last) (hSkip : whitespaceSkip buf itr last = key)
    (hHas : Has buf key a.pair) (hLast : key + a.pair.length ≤ last) :
    attributesFrom buf last (rounds + 1) itr found =
      attributesFrom buf last rounds (key + a.pair.length) (found ++ [a]) := by
  have hLength := a.length_pair
  have hPos := hWell.key.length_pos
  have hKey : Has buf key a.key := by
    unfold Attribute.pair at hHas
    exact hHas.left.left.left
  have hEquals : Has buf (key + a.key.length) [0x3d, 0x22] := by
    unfold Attribute.pair at hHas
    exact hHas.left.left.right
  have hValue : Has buf (key + a.key.length + 2) a.value := by
    unfold Attribute.pair at hHas
    have hRight := hHas.left.right
    rw [length_append] at hRight
    exact hRight
  have hQuote : buf[key + a.key.length + 2 + a.value.length]? = some 0x22 := by
    unfold Attribute.pair at hHas
    have hRight := hHas.right.cons.1
    rw [length_append, length_append] at hRight
    rw [← Nat.add_assoc, ← Nat.add_assoc] at hRight
    exact hRight
  rw [attributesFrom, if_pos hItr]
  dsimp only
  rw [hSkip, scanFor_of (k := a.key.length) (by omega) (fun j hJ => by
        rw [hWell.key.charAt hKey hJ, hWell.key.spaceAt hKey hJ, Bool.or_false])
      (by
        rw [charAt_of_get hEquals.cons.1, decide_eq_true rfl, Bool.true_or]),
    getD_some, if_neg (by omega), if_neg (by omega), if_neg (by omega)]
  have hStart : valueStart buf (key + a.key.length) last = some (key + a.key.length + 1) := by
    unfold valueStart
    rw [scanFor_of (k := 0) (by omega) (fun _ hJ =>
        absurd hJ (Nat.not_lt_zero _)) (by
          rw [Nat.add_zero, charAt_of_get hEquals.cons.1, decide_eq_true rfl]),
      map_some, Nat.add_zero, whitespaceSkip_none (by omega) (spaceAt_of_get hEquals.cons.2.cons.1)]
  have hSpan : valueSpan buf (key + a.key.length + 1) last =
        some (key + a.key.length + 2, key + a.key.length + 2 + a.value.length) := by
    unfold valueSpan
    rw [charAt_of_get hEquals.cons.2.cons.1, if_pos (decide_eq_true rfl),
      scanFor_of (k := a.value.length) (by omega) (fun j hJ => by
          rw [hValue.charAt hJ, decide_eq_false_iff_not]
          intro hGet
          exact (hWell.value _ (mem_of_getElem? hGet)).1 rfl)
        (by rw [charAt_of_get hQuote, decide_eq_true rfl]), map_some]
  rw [hStart]
  dsimp only
  rw [if_neg (by omega), hSpan]
  dsimp only
  rw [hKey.slice_eq, hValue.slice_eq, hWell.key.text,
    text_of_noNul fun c hC => (hWell.value c hC).2]
  congr 1
  omega

theorem attributesFrom_dump {buf : List Byte} {itr last rounds : Nat}
    {found attributes : List Attribute} (hWell : ∀ a ∈ attributes, a.WellFormed)
    (hHas : Has buf itr (attributesDump attributes))
    (hLast : itr + (attributesDump attributes).length = last)
    (hRounds : attributes.length ≤ rounds) :
    attributesFrom buf last rounds itr found = some (true, found ++ attributes) := by
  induction attributes generalizing itr rounds found with
  | nil =>
    obtain rfl : itr = last := hLast
    unfold attributesFrom
    rw [if_neg (Nat.lt_irrefl _), append_nil]
  | cons a attributes ih =>
    cases rounds with
    | zero => exact absurd hRounds (Nat.not_succ_le_zero _)
    | succ rounds =>
      have hFirst := hWell a mem_cons_self
      rw [attributesDump_cons, a.dump_eq] at hHas hLast
      rw [length_append, length_cons] at hLast
      have hPair : Has buf (itr + 1) a.pair := hHas.left.cons.2
      have hRest := hHas.right
      rw [length_cons] at hRest
      have hLength := a.length_pair
      have hPos := hFirst.key.length_pos
      have hKey : Has buf (itr + 1) a.key := by
        unfold Attribute.pair at hPair
        exact hPair.left.left.left
      rw [attributesFrom_round hFirst (by omega)
        (whitespaceSkip_one (by omega) (spaceAt_of_get hHas.left.cons.1)
        (hFirst.key.spaceAt hKey hPos)) hPair (by omega)]
      rw [ih (fun b hB => hWell b (mem_cons_of_mem _ hB)) (by
          rw [Nat.add_assoc, Nat.add_comm 1]
          exact hRest) (by omega) (Nat.le_of_succ_le_succ hRounds), append_assoc, singleton_append]

---
-- Tags
---

/- What stands between the brackets of a tag -/
def tagBody (name : List Byte) (attributes : List Attribute) : List Byte :=
  name ++ attributesDump attributes

theorem Attribute.WellFormed.quoteState
    {a : Attribute} (hWell : a.WellFormed) : quoteState false a.dump = some false := by
  unfold Attribute.dump
  rw [quoteState_append, quoteState_append, quoteState_append, quoteState_append,
    show SimpleXml.quoteState false [0x20] = some false from rfl,
    bind_some, hWell.key.quoteState, bind_some,
    show SimpleXml.quoteState false [0x3d, 0x22] = some true from rfl,
    bind_some, quoteState_quoted fun c hC => (hWell.value c hC).1, bind_some]
  rfl

variable {attributes : List Attribute}

theorem tagBody_quoteState (hName : IsName name)
    (hAttributes : ∀ a ∈ attributes, a.WellFormed) :
    quoteState false (tagBody name attributes) = some false := by
  unfold tagBody
  rw [quoteState_append, hName.quoteState, bind_some]
  clear hName
  induction attributes with
  | nil => rfl
  | cons a attributes ih =>
    rw [attributesDump_cons, quoteState_append, (hAttributes a mem_cons_self).quoteState, bind_some]
    exact ih fun b hB =>
      hAttributes b (mem_cons_of_mem _ hB)

theorem attributesDump_last (hNe : attributes ≠ []) :
    (attributesDump attributes).getLast? = some 0x22 := by
  induction attributes with
  | nil => exact absurd rfl hNe
  | cons a attributes ih =>
    rw [attributesDump_cons]
    by_cases hRest : attributes = []
    · subst hRest
      show (a.dump ++ []).getLast? = _
      rw [append_nil]
      exact getLast?_concat
    · rw [getLast?_append, ih hRest]
      rfl

/- The body of a tag ends with a byte of a name or a quote. -/
theorem tagBody_last (hName : IsName name)
    (attributes : List Attribute) :
    ∃ c, (tagBody name attributes)[
        (tagBody name attributes).length - 1]? = some c ∧
      isspace c = false ∧ c ≠ 0x2f := by
  rw [← getLast?_eq_getElem?]
  unfold tagBody
  by_cases hNone : attributes = []
  · subst hNone
    show ∃ c, (name ++ []).getLast? = some c ∧ _
    rw [append_nil]
    refine ⟨name.getLast hName.nonempty, getLast?_eq_some_getLast hName.nonempty, ?_⟩
    have hAlnum := hName.alnum _ (getLast_mem hName.nonempty)
    exact ⟨isspace_of_isalnum hAlnum, ne_of_isalnum hAlnum⟩
  · rw [getLast?_append, attributesDump_last hNone]
    exact ⟨0x22, rfl, by decide, by decide⟩

theorem tagBody_length_pos (hName : IsName name)
    (attributes : List Attribute) : 0 < (tagBody name attributes).length := by
  have hPos := hName.length_pos
  unfold tagBody
  rw [length_append]
  omega

/- A tag that starts with a name is no special one. -/
theorem tagType_of_name (hName : IsName name)
    (hHas : Has buf (i + 1) name) : tagType buf i = (.opening, 0) := by
  have hPos := hName.length_pos
  have hSlash := hName.charAt (d := 0x2f) hHas hPos
  have hMark := hName.charAt (d := 0x3f) hHas hPos
  have hBang := hName.charAt (d := 0x21) hHas hPos
  rw [Nat.add_zero] at hSlash hMark hBang
  unfold tagType
  rw [hSlash, hMark, hBang]
  rfl

/- The round at a tag, whose body is followed by `slash` -/
theorem step_opening (slash : List Byte) {kind : Kind} (hName : IsName name)
    (hAttributes : ∀ a ∈ attributes, a.WellFormed)
    (hSize : buf.length < 4294967296) (hHas : Has buf i
      (0x3c :: (tagBody name attributes ++ slash ++ [0x3e])))
    (hSlash : (slash = [] ∧ kind = .opening) ∨
      (slash = [0x2f] ∧ kind = .openEmpty)) :
    step buf true i = ([⟨kind, i + 1, (tagBody name attributes).length⟩], .go
      (i + (tagBody name attributes).length + slash.length + 2)) := by
  rcases tagBody_last hName attributes with ⟨c, hLast, hSpace, hNotSlash⟩
  have hPos := tagBody_length_pos hName attributes
  have hState := tagBody_quoteState hName hAttributes
  have hFirst : Has buf (i + 1) name := by
    unfold tagBody at hHas
    exact hHas.cons.2.left.left.left
  have hNameSpace := hName.spaceAt hFirst hName.length_pos
  generalize tagBody name attributes = body at *
  have hBody : Has buf (i + 1) body := hHas.cons.2.left.left
  have hTail : Has buf (i + 1 + body.length) slash := hHas.cons.2.left.right
  have hLength := hHas.length_le
  simp only [length_cons, length_append, length_nil] at hLength
  have hGt : buf[i + 1 + (body ++ slash).length]? = some 0x3e := hHas.cons.2.right.cons.1
  rw [length_append, ← Nat.add_assoc] at hGt
  have hBodyLast : buf[i + 1 + (body.length - 1)]? = some c := by
    rw [hBody.get (by omega), hLast]
  have hEnd : tagEndFind buf (i + 1) = some (i + 1 + body.length + slash.length) := by
    rw [tagEndFind_of (s := body ++ slash) hHas.cons.2, length_append, ← Nat.add_assoc]
    rw [quoteState_append, hState]
    rcases hSlash with ⟨rfl, -⟩ | ⟨rfl, -⟩
    · rfl
    · rfl
  have hTrim : tagTrim buf .opening
      (i + 1 + body.length + slash.length) = (kind, i + 1 + body.length) := by
    rcases hSlash with ⟨rfl, rfl⟩ | ⟨rfl, rfl⟩
    · have hChar := charAt_of_get hBodyLast 0x2f
      rw [decide_eq_false hNotSlash,
        show i + 1 + (body.length - 1) =
          i + 1 + body.length + 0 - 1 by omega] at hChar
      show (if charAt buf (i + 1 + body.length + 0 - 1) 0x2f
        then _ else _) = _
      rw [hChar]
      rfl
    · have hChar := charAt_of_get hTail.cons.1 0x2f
      show (if charAt buf (i + 1 + body.length) 0x2f
        then _ else _) = _
      rw [hChar]
      rfl
  have hStrip : stripped buf (i + 1 + 0) (i + 1 + body.length) = (i + 1, i + 1 + body.length) := by
    refine stripped_of (by omega) hNameSpace ?_
    rw [show i + 1 + body.length - 1 = i + 1 +
        (body.length - 1) by omega, spaceAt_of_get hBodyLast, hSpace]
  rw [step_tag 0 (by rw [charAt_of_get hHas.cons.1]; rfl)
    (tagType_of_name hName hFirst) hEnd (by rw [charAt_of_get hGt]; rfl)
    (by omega) hTrim (by
      rcases hSlash with ⟨-, rfl⟩ | ⟨-, rfl⟩
      · decide
      · decide) hStrip, token_of kind (by omega) (by omega)]
  rw [Nat.add_sub_cancel_left,
    show i + 1 + body.length + slash.length + 1 =
      i + body.length + slash.length + 2 by omega]

---
-- Names and Attributes of Tags
---

/- No scan stops in a name. -/
theorem IsName.scan (hName : IsName name) (hHas : Has buf i name)
    (hLess : k < name.length) :
    (SimpleXml.spaceAt buf (i + k) || SimpleXml.charAt buf (i + k) 0x3d) = false := by
  rw [hName.spaceAt hHas hLess, hName.charAt hHas hLess, Bool.or_false]

/- The name ends where it ends, with or without a space. -/
theorem IsName.unskip (hName : IsName name) (hHas : Has buf i name) :
    whitespaceUnskip buf (i + name.length) i = i + name.length := by
  have hPos := hName.length_pos
  have hLast := hName.spaceAt hHas (Nat.sub_lt hPos Nat.zero_lt_one)
  have hUnskip := whitespaceUnskip_stop i (Or.inr hLast)
  rw [Nat.add_assoc, Nat.sub_add_cancel hPos] at hUnskip
  exact hUnskip

theorem tagParse_of (hName : IsName name) (hAttributes : ∀ a ∈ attributes, a.WellFormed)
    (hHas : Has buf i (tagBody name attributes)) :
    tagParse buf i (i + (tagBody name attributes).length) = some (name, attributes) := by
  have hPos := hName.length_pos
  have hFirst : Has buf i name := hHas.left
  have hRest : Has buf (i + name.length) (attributesDump attributes) := hHas.right
  have hLength : (tagBody name attributes).length =
      name.length + (attributesDump attributes).length := length_append
  rw [hLength]
  cases attributes with
  | nil =>
    have hFind : attributesFind buf i (i + name.length) =
        none := by
      unfold attributesFind
      rw [scanFor_none]
      exact fun j hJ => hName.scan hFirst (by omega)
    unfold tagParse
    rw [show (attributesDump []).length = 0 from rfl, Nat.add_zero]
    dsimp only
    rw [hFind, getD_none, hName.unskip hFirst, hFirst.slice_eq, hName.text]
  | cons a rest =>
    have hWell := hAttributes a mem_cons_self
    rw [attributesDump_cons, a.dump_eq] at hRest ⊢
    rw [length_append, length_cons]
    have hPairLength := a.length_pair
    have hSpace := spaceAt_of_get (c := 0x20) hRest.left.cons.1
    have hPair : Has buf (i + name.length + 1) a.pair := hRest.left.cons.2
    have hKey : Has buf (i + name.length + 1) a.key := by
      unfold Attribute.pair at hPair
      exact hPair.left.left.left
    have hKeyChar := hWell.key.spaceAt hKey hWell.key.length_pos
    have hMore := hRest.right
    rw [length_cons] at hMore
    generalize hLast : i + (name.length + (a.pair.length + 1 + (attributesDump rest).length)) = last
    have hFind : attributesFind buf i last = some (i + name.length + 1) := by
      unfold attributesFind
      rw [scanFor_of (k := name.length) (by omega) (fun j hJ =>
        hName.scan hFirst hJ) (by rw [hSpace]; rfl)]
      dsimp only
      rw [hSpace, if_pos (by decide), whitespaceSkip_none (by omega) hKeyChar, if_neg (by omega)]
    have hParse : attributesParse buf (i + name.length + 1) last = some (true, a :: rest) := by
      unfold attributesParse
      rw [show last - (i + name.length + 1) =
          (last - (i + name.length + 2)) + 1 by omega,
          attributesFrom_round hWell (by omega) (whitespaceSkip_none
          (by omega) hKeyChar) hPair (by omega), attributesFrom_dump
          (fun b hB => hAttributes b (mem_cons_of_mem _ hB)) (by
            rw [show i + name.length + 1 + a.pair.length =
              i + name.length + (a.pair.length + 1) by omega]
            exact hMore) (by omega)
          (by
            have hCount := attributesDump_length rest
            omega), nil_append, singleton_append]
    unfold tagParse
    dsimp only
    rw [hFind, getD_some]
    dsimp only
    rw [hParse, whitespaceUnskip_space (by omega) hSpace,
      hName.unskip hFirst, hFirst.slice_eq, hName.text, map_some]

/- The round at the end of a tag -/
theorem step_close {buf : List Byte} {i : Nat} {name : List Byte}
    (hName : IsName name) (hSize : buf.length < 4294967296)
    (hHas : Has buf i (closeDump name)) :
    step buf true i = ([⟨.close, i + 2, name.length⟩], .go (i + (closeDump name).length)) := by
  have hPos := hName.length_pos
  have hLength := hHas.length_le
  unfold closeDump at *
  simp only [length_append, length_cons, length_nil] at hLength ⊢
  have hSlash := hHas.left.left.cons.2.cons.1
  have hFirst : Has buf (i + 2) name := hHas.left.right
  have hBehind : Has buf (i + 2) (name ++ [0x3e]) := by
    rw [append_assoc] at hHas
    exact hHas.right
  have hGt := hBehind.right.cons.1
  have hType : tagType buf i = (.close, 1) := by
    unfold tagType
    rw [charAt_of_get hSlash]
    rfl
  have hLast := hName.spaceAt hFirst (Nat.sub_lt hPos Nat.zero_lt_one)
  rw [step_tag 1 (by rw [charAt_of_get hHas.left.left.cons.1]; rfl)
    hType (tagEndFind_of hBehind hName.quoteState)
    (by rw [charAt_of_get hGt]; rfl) (by omega) rfl (by decide)
    (stripped_of (by omega) (hName.spaceAt hFirst hPos) (by
        rw [show i + 2 + name.length - 1 = i + 2 + (name.length - 1) by omega]
        exact hLast)), token_of _ (by omega) (by omega)]
  rw [show i + 2 + name.length - (i + 1 + 1) = name.length by
      omega,
    show i + 2 + name.length + 1 =
      i + (0 + 1 + 1 + name.length + (0 + 1)) by omega]

---
-- Texts
---

/- What is left of a text that was padded with a space -/
def padded (text : List Byte) : List Byte :=
  if text.length = 1 then text ++ [0x20] else text

variable {text : List Byte}

section

variable (hTrimmed : IsTrimmed text)

include hTrimmed

theorem IsTrimmed.length_pos : 0 < text.length :=
  length_pos_of_ne_nil hTrimmed.nonempty

theorem IsTrimmed.spaceAt_first
    (hHas : Has buf i text) : spaceAt buf i = false := by
  cases text with
  | nil => exact absurd rfl hTrimmed.nonempty
  | cons c text =>
    rw [spaceAt_of_get hHas.cons.1]
    exact hTrimmed.first c rfl

theorem IsTrimmed.spaceAt_last
    (hHas : Has buf i text) : spaceAt buf (i + (text.length - 1)) = false := by
  have hPos := hTrimmed.length_pos
  rw [hHas.spaceAt (by omega), ← getLast?_eq_getElem?,
    getLast?_eq_some_getLast hTrimmed.nonempty, any_some]
  exact hTrimmed.last _ (getLast?_eq_some_getLast hTrimmed.nonempty)

/- The space behind a text of one byte is not looked at. -/
theorem unskip_padded
    (hHas : Has buf i (text ++ [0x20])) :
    whitespaceUnskip buf (i + text.length + 1) (i + 1) = i + (padded text).length := by
  have hPos := hTrimmed.length_pos
  unfold padded
  by_cases hOne : text.length = 1
  · rw [if_pos hOne, length_append, hOne, whitespaceUnskip_stop _ (Or.inl (Nat.le_refl _))]
    rfl
  · have hLast := hTrimmed.spaceAt_last hHas.left
    have hUnskip := whitespaceUnskip_stop (i + 1) (Or.inr hLast)
    rw [Nat.add_assoc i (text.length - 1), Nat.sub_add_cancel hPos] at hUnskip
    rw [if_neg hOne, whitespaceUnskip_space (by omega) (spaceAt_of_get hHas.right.cons.1), hUnskip]

omit hTrimmed in
theorem Has.padded (hHas : Has buf i (text ++ [0x20])) : Has buf i (padded text) := by
  unfold SimpleXml.padded
  split
  · exact hHas
  · exact hHas.left

omit hTrimmed in
theorem length_padded_le (text : List Byte) : (padded text).length ≤ text.length + 1 := by
  unfold padded
  split
  · exact Nat.le_of_eq length_append
  · exact Nat.le_succ _

/- The round at a comment -/
theorem step_comment (hDashes : ¬ [0x2d, 0x2d] <:+: text)
    (hSize : buf.length < 4294967296) (hHas : Has buf i ([0x3c, 0x21,
    0x2d, 0x2d, 0x20] ++ text ++ [0x20, 0x2d, 0x2d, 0x3e])) :
    step buf true i = ([⟨.comment, i + 5, (padded text).length⟩], .go (i + text.length + 9)) := by
  have hLength := hHas.length_le
  simp only [length_append, length_cons, length_nil] at hLength
  have hOpen := hHas.left.left
  have hText : Has buf (i + 5) text := hHas.left.right
  have hSpaced : Has buf (i + 5) (text ++ [0x20]) := by
    rw [append_assoc] at hHas
    have hRight : Has buf (i + 5) (text ++ ([0x20] ++ [0x2d, 0x2d, 0x3e])) := hHas.right
    rw [← append_assoc] at hRight
    exact hRight.left
  have hInner : Has buf (i + 4) (0x20 :: text ++ [0x20, 0x2d, 0x2d, 0x3e]) := by
    have hWhole : Has buf i ([0x3c, 0x21, 0x2d, 0x2d] ++
          (0x20 :: text ++ [0x20, 0x2d, 0x2d, 0x3e])) := hHas
    exact hWhole.right
  have hDash : Has buf (i + (5 + text.length) + 1) [0x2d, 0x2d, 0x3e] := by
    have hRight := hHas.right.cons.2
    rw [length_append] at hRight
    exact hRight
  have hType : tagType buf i = (.comment, 3) := by
    unfold tagType
    have hBang := hOpen.cons.2.cons.1
    have hMinus := hOpen.cons.2.cons.2
    rw [charAt_of_get hBang, charAt_of_get hBang, charAt_of_get hBang]
    have hNot : matchesAt buf (i + 2) doctypeName = false :=
      matchesAt_of_head hMinus.cons.1 (by decide) _
    have hComment : matchesAt buf (i + 2) commentName = true :=
      (Has.left (t := [0x20]) hMinus).matchesAt
    rw [show i + 1 + 1 = i + 2 from rfl] at *
    rw [hNot, hComment, decide_eq_true (by omega :
      i + 7 < buf.length), Bool.and_false]
    rfl
  have hGt := hDash.cons.2.cons.2.cons.1
  have hTrim : tagTrim buf .comment (i + 4 + text.length + 4) =
      (.comment, i + 5 + text.length + 1) := by
    have hMatch : matchesAt buf (i + 5 + text.length + 1) [0x2d, 0x2d] = true := by
      rw [Nat.add_assoc i 5]
      exact (Has.left (t := [0x3e]) hDash).matchesAt
    show (if matchesAt buf (i + 4 + text.length + 4 - 2) [0x2d, 0x2d] then _ else _) = _
    rw [show i + 4 + text.length + 4 - 2 =
      i + 5 + text.length + 1 by omega, hMatch, if_pos rfl]
  have hStrip : stripped buf (i + 1 + 3) (i + 5 + text.length + 1) =
      (i + 5, i + 5 + (padded text).length) := by
    unfold stripped
    have hSkip : whitespaceSkip buf (i + 1 + 3) (i + 5 + text.length + 1) = i + 5 :=
      whitespaceSkip_one (by omega) (spaceAt_of_get hInner.cons.1) (hTrimmed.spaceAt_first hText)
    rw [hSkip]
    dsimp only
    rw [unskip_padded hTrimmed hSpaced]
  have hPadded := length_padded_le text
  rw [step_tag _ (by rw [charAt_of_get hOpen.cons.1]; rfl) hType
    (commentEnd_of hInner hDashes) (by
      rw [show i + 4 + text.length + 4 = i +
          (5 + text.length) + 1 + 1 + 1 by omega, charAt_of_get hGt]
      rfl) (by omega) hTrim (by decide) hStrip,
    token_of _ (by omega) (by omega), Nat.add_sub_cancel_left,
    show i + 4 + text.length + 4 + 1 = i + text.length + 9 by
      omega]

/- The round at a processing tag -/
theorem step_processing
    (hText : DataKind.processing.WellFormed text) (hSize : buf.length < 4294967296)
    (hHas : Has buf i ([0x3c, 0x3f] ++ text ++ [0x20, 0x3f, 0x3e])) :
    step buf true i =
      ([⟨.processing, i + 2, (padded text).length⟩], .go (i + text.length + 5)) := by
  have hLength := hHas.length_le
  simp only [length_append, length_cons, length_nil] at hLength
  have hOpen := hHas.left.left
  have hFirst : Has buf (i + 2) text := hHas.left.right
  have hInner : Has buf (i + 2) (text ++ [0x20, 0x3f] ++ [0x3e]) := by
    rw [append_assoc] at hHas ⊢
    exact hHas.right
  have hSpaced : Has buf (i + 2) (text ++ [0x20]) := by
    have hLeft : Has buf (i + 2) (text ++ ([0x20] ++ [0x3f])) := hInner.left
    rw [← append_assoc] at hLeft
    exact hLeft.left
  have hMarks : Has buf (i + 2 + text.length) [0x20, 0x3f] := hInner.left.right
  have hGt := hInner.right.cons.1
  rw [length_append] at hGt
  have hType : tagType buf i = (.processing, 1) := by
    unfold tagType
    rw [charAt_of_get hOpen.cons.2.cons.1, charAt_of_get hOpen.cons.2.cons.1]
    rfl
  have hEnd : tagEndFind buf (i + 2) = some (i + 2 + (text.length + 2)) := by
    rw [tagEndFind_of hInner, length_append]
    · rfl
    · refine quoteState_plain fun c hC => ?_
      rw [mem_append] at hC
      cases hC with
      | inl hC =>
        rcases hText c hC with ⟨hLt, hGt, -, hQuote⟩
        exact ⟨hQuote, hGt, hLt⟩
      | inr hC =>
        revert c
        decide
  have hTrim : tagTrim buf .processing (i + 2 + (text.length + 2)) =
      (.processing, i + 2 + text.length + 1) := by
    show (if charAt buf (i + 2 + text.length + 1) 0x3f
      then _ else _) = _
    rw [charAt_of_get hMarks.cons.2.cons.1]
    rfl
  have hStrip : stripped buf (i + 1 + 1) (i + 2 + text.length + 1) =
      (i + 2, i + 2 + (padded text).length) := by
    unfold stripped
    rw [whitespaceSkip_none (by omega) (hTrimmed.spaceAt_first hFirst)]
    dsimp only
    rw [unskip_padded hTrimmed hSpaced]
  have hPadded := length_padded_le text
  rw [step_tag _ (by rw [charAt_of_get hOpen.cons.1]; rfl) hType hEnd
    ((charAt_of_get hGt _).trans rfl) (by omega) hTrim (by decide)
    hStrip, token_of _ (by omega) (by omega), Nat.add_sub_cancel_left,
    show i + 2 + (text.length + 2) + 1 = i + text.length + 5 by
      omega]

/- The round at data, up to a tag or the end -/
theorem step_data (hText : 0x3c ∉ text)
    (hSize : buf.length < 4294967296) (hHas : Has buf i text)
    (hEnds : i + text.length = buf.length ∨
      charAt buf (i + text.length) 0x3c = true) :
    step buf true i = ([⟨.ignored, i, 0⟩, ⟨.data, i, text.length⟩], .go (i + text.length)) := by
  have hPos := hTrimmed.length_pos
  have hLength := hHas.length_le
  have hNotLt : ∀ j < text.length, charAt buf (i + j) 0x3c = false := by
    intro j hJ
    rw [hHas.charAt hJ, decide_eq_false_iff_not]
    exact fun hGet => hText (mem_of_getElem? hGet)
  have hFind : (tagStartFind buf i).getD buf.length = i + text.length := by
    unfold tagStartFind
    cases hEnds with
    | inl hEnd =>
      rw [scanFor_none fun j hJ => hNotLt j (by omega), getD_none, hEnd]
    | inr hLt =>
      have hIn := charAt_lt hLt
      rw [scanFor_of (by omega) hNotLt hLt, getD_some]
  have hUnskip : whitespaceUnskip buf (i + text.length) i = i + text.length := by
    have hLast := hTrimmed.spaceAt_last hHas
    have hStop := whitespaceUnskip_stop i (Or.inr hLast)
    rw [Nat.add_assoc, Nat.sub_add_cancel hPos] at hStop
    exact hStop
  have hFirst := hNotLt 0 hPos
  rw [Nat.add_zero] at hFirst
  unfold step dataStep dataTokens
  rw [hFirst, if_neg Bool.false_ne_true, if_pos rfl,
    whitespaceSkip_none (by omega) (hTrimmed.spaceAt_first hHas)]
  dsimp only
  rw [hFind, if_pos rfl, hUnskip, if_pos (by omega),
    if_neg (by omega), append_nil, token_of _ (Nat.le_refl _) (by omega),
    token_of _ (by omega) (by omega), Nat.sub_self, Nat.add_sub_cancel_left]

end

end Efl.Eina.SimpleXml
