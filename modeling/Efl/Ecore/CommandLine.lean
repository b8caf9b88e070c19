import Efl.Lib.Bytes

/-
  `Efl_Core_Command_Line`: an array of arguments and the
  command that is made of it.

  A string is its bytes before the NUL.  A read behind the
  NUL, or outside of the table that strings of one byte are
  shared in, is `none`.  Memory is always there.

  Main declarations:
    * `unescape`, `escape`
    * `commandArraySet`, `commandStringSet`
    * `unescape_command`
    * `command_round_trip_iff`
-/

---
-- Escaping
---

namespace Efl.Ecore.CommandLine

open Bytes List

def doubleQuote : Byte := 0x22

def singleQuote : Byte := 0x27

def backslash : Byte := 0x5c

def space : Byte := 0x20

/-
  The shared string with these bytes; the table for one byte
  is indexed by a `char`, which is signed.
-/
def stringshareAdd : List Byte → Option (List Byte)
  | [c] => if c.toInt < 0 then none else some [c]
  | s => some s

/- The quotes that `_unescape` is in -/
inductive Quote where
  | outside
  | single
  | double
  deriving DecidableEq

/- Where a blank ends an argument -/
def isBlank (c : Byte) : Bool :=
  c = space ∨ c = 0x09 ∨ c = 0x0d ∨ c = 0x0a

/- The loop of `_unescape`; `tmp` is the argument so far. -/
def unescapeFrom : List Byte → Quote → Option (List Byte) →
      List (List Byte) → Option (List (List Byte))
  | [], _, none, args => some args
  | [], _, some d, args => do
    let s ← stringshareAdd d
    some (args ++ [s])
  | c :: p, quote, tmp, args =>
    let d := tmp.getD []
    -- what ends an argument
    if (quote = .double ∧ c = doubleQuote) ∨
        (quote = .single ∧ c = singleQuote) ∨
        (quote = .outside ∧ isBlank c) then do
      let s ← stringshareAdd d
      unescapeFrom p .outside none (args ++ [s])
    else if quote = .outside ∧ c = doubleQuote then
      unescapeFrom p .double (some d) args
    else if quote = .outside ∧ c = singleQuote then
      unescapeFrom p .single (some d) args
    else if c = backslash then
      match p with
      | [] => none
      | c :: p => unescapeFrom p quote (some (d ++ [c])) args
    else
      unescapeFrom p quote (some (d ++ [c])) args

/- `_unescape` -/
def unescape (s : List Byte) : Option (List (List Byte)) :=
  unescapeFrom s .outside none []

/- The characters for which `_escape` needs quotes -/
def quoted : List Byte :=
  [singleQuote, doubleQuote, 0x24, 0x23, 0x3b, 0x26, 0x60, 0x7c,
    0x28, 0x29, 0x5b, 0x5d, 0x7b, 0x7d, 0x3e, 0x3c, 0x0a, 0x0d,
    0x09, space]

def needQuote (s : List Byte) : Bool :=
  s.any fun c => quoted.contains c

/- A character, with a backslash where it needs one -/
def escapeByte (c : Byte) : List Byte :=
  if c = backslash ∨ c = singleQuote ∨ c = doubleQuote then
    [backslash, c]
  else
    [c]

/- `_escape` -/
def escape (s : List Byte) : List Byte :=
  if needQuote s then
    doubleQuote :: (s.flatMap escapeByte ++ [doubleQuote])
  else
    s.flatMap escapeByte

---
-- Command Lines
---

/- `Efl_Core_Command_Line_Data` -/
structure Data where
  filled : Bool
  stringCommand : Option (List Byte)
  command : Option (List (List Byte))
  deriving DecidableEq

def Data.new : Data where
  filled := false
  stringCommand := none
  command := none

/- `_remove_invalid_chars`, where a `char` is signed -/
def removeInvalidChars (command : List Byte) : List Byte :=
  command.map fun c =>
    if c.toInt < 0x20 ∨ c = 0x7f then 0x12 else c

/- The command that `_efl_core_command_line_command_array_set` builds -/
def build : List (List Byte) → List Byte
  | [] => []
  | [a] => escape a
  | a :: rest => escape a ++ space :: build rest

/- `_efl_core_command_line_command_array_set` -/
def commandArraySet (pd : Data) (array : List (List Byte)) : Option (Data × Bool) :=
  if pd.filled then
    some (pd, false)
  else do
    let command ← array.mapM fun content =>
      stringshareAdd (removeInvalidChars content)
    some
      ({ filled := true
         stringCommand := some (build array)
         command := some command }, true)

/- `_efl_core_command_line_command_string_set` -/
def commandStringSet (pd : Data) (str : List Byte) : Option (Data × Bool) :=
  if pd.filled then
    some (pd, false)
  else do
    let command ← unescape str
    some
      ({ filled := true
         stringCommand := some (removeInvalidChars str)
         command := some command }, true)

/-
  The arguments after an array was set on one command line,
  and the command of that on another
-/
def roundTrip (array : List (List Byte)) : Option (List (List Byte)) := do
  let (first, _) ← commandArraySet .new array
  let str ← first.stringCommand
  let (second, _) ← commandStringSet .new str
  second.command

---
-- Scanning
---

/- What ends an argument -/
abbrev Ends (quote : Quote) (c : Byte) : Prop :=
  (quote = .double ∧ c = doubleQuote) ∨
    (quote = .single ∧ c = singleQuote) ∨
    (quote = .outside ∧ isBlank c)

variable {quote : Quote} {c : Byte}

theorem unescapeFrom_end (p : List Byte) (tmp : Option (List Byte))
    (args : List (List Byte)) (hEnd : Ends quote c) :
    unescapeFrom (c :: p) quote tmp args =
      (stringshareAdd (tmp.getD [])).bind fun t =>
        unescapeFrom p .outside none (args ++ [t]) := by
  cases p <;>
  · rw [unescapeFrom, if_pos hEnd]
    rfl

theorem unescapeFrom_open (p : List Byte) (tmp : Option (List Byte))
    (args : List (List Byte)) :
    unescapeFrom (doubleQuote :: p) .outside tmp args =
      unescapeFrom p .double (some (tmp.getD [])) args := by
  have hEnd : ¬ Ends .outside doubleQuote := by decide
  conv_lhs => rw [unescapeFrom.eq_def]
  dsimp only
  rw [if_neg hEnd, if_pos ⟨rfl, rfl⟩]

theorem unescapeFrom_escaped (p : List Byte) (tmp : Option (List Byte))
    (args : List (List Byte)) :
    unescapeFrom (backslash :: c :: p) quote tmp args =
      unescapeFrom p quote (some (tmp.getD [] ++ [c])) args := by
  have hEnd : ¬ Ends quote backslash := by
    cases quote <;> decide
  have hDouble : ¬ (quote = .outside ∧ backslash = doubleQuote) :=
    fun hBoth => absurd hBoth.2 (by decide)
  have hSingle : ¬ (quote = .outside ∧ backslash = singleQuote) :=
    fun hBoth => absurd hBoth.2 (by decide)
  rw [unescapeFrom, if_neg hEnd, if_neg hDouble, if_neg hSingle, if_pos rfl]

theorem unescapeFrom_char (p : List Byte) (tmp : Option (List Byte))
    (args : List (List Byte)) (hEnd : ¬ Ends quote c)
    (hDouble : ¬ (quote = .outside ∧ c = doubleQuote))
    (hSingle : ¬ (quote = .outside ∧ c = singleQuote))
    (hBack : c ≠ backslash) :
    unescapeFrom (c :: p) quote tmp args =
      unescapeFrom p quote (some (tmp.getD [] ++ [c])) args := by
  conv_lhs => rw [unescapeFrom.eq_def]
  dsimp only
  rw [if_neg hEnd, if_neg hDouble, if_neg hSingle, if_neg hBack]

/- Outside of quotes, the characters that need none -/
theorem unescape_plain {a : List Byte} (hPlain : needQuote a = false)
    (s : List Byte) (tmp : Option (List Byte))
    (args : List (List Byte)) :
    unescapeFrom (a.flatMap escapeByte ++ s) .outside tmp args =
      unescapeFrom s .outside (if a = [] then tmp else some (tmp.getD [] ++ a)) args := by
  induction a generalizing tmp with
  | nil => rfl
  | cons c a ih =>
    rw [needQuote, any_cons, Bool.or_eq_false_iff] at hPlain
    rcases hPlain with ⟨hHere, hRest⟩
    have hOther : c ≠ singleQuote ∧ c ≠ doubleQuote ∧ ¬ Ends .outside c := by
      simp only [quoted, contains_cons, Bool.or_eq_false_iff, beq_eq_false_iff_ne] at hHere
      refine ⟨hHere.1, hHere.2.1, ?_⟩
      unfold Ends isBlank
      grind
    rcases hOther with ⟨hSingle, hDouble, hEnd⟩
    have hNext :
        unescapeFrom (a.flatMap escapeByte ++ s) .outside
          (some (tmp.getD [] ++ [c])) args =
        unescapeFrom s .outside (some (tmp.getD [] ++ c :: a)) args := by
      rw [ih hRest]
      by_cases hNil : a = []
      · rw [if_pos hNil, hNil]
      · rw [if_neg hNil, Option.getD_some, append_assoc]
        rfl
    rw [flatMap_cons, append_assoc, if_neg (cons_ne_nil _ _), ← hNext]
    by_cases hBack : c = backslash
    · rw [escapeByte, if_pos (Or.inl hBack)]
      exact unescapeFrom_escaped _ _ _
    · rw [escapeByte, if_neg (by simp [hBack, hSingle, hDouble])]
      exact unescapeFrom_char _ _ _ hEnd (fun hBoth => hDouble hBoth.2)
        (fun hBoth => hSingle hBoth.2) hBack

/- In double quotes, up to the one that ends the argument -/
theorem unescape_quoted (a s d : List Byte) (args : List (List Byte)) :
    unescapeFrom (a.flatMap escapeByte ++ doubleQuote :: s) .double
        (some d) args =
      (stringshareAdd (d ++ a)).bind fun t =>
        unescapeFrom s .outside none (args ++ [t]) := by
  induction a generalizing d with
  | nil =>
    rw [append_nil]
    exact unescapeFrom_end _ _ _ (Or.inl ⟨rfl, rfl⟩)
  | cons c a ih =>
    have hNext := ih (d ++ [c])
    rw [append_assoc, singleton_append] at hNext
    rw [flatMap_cons, append_assoc, ← hNext]
    by_cases hEscaped :
        c = backslash ∨ c = singleQuote ∨ c = doubleQuote
    · rw [escapeByte, if_pos hEscaped]
      exact unescapeFrom_escaped _ _ _
    · rw [escapeByte, if_neg hEscaped]
      simp only [not_or] at hEscaped
      apply unescapeFrom_char
      · unfold Ends
        simp [hEscaped]
      · exact fun hBoth => (nomatch hBoth.1)
      · exact fun hBoth => (nomatch hBoth.1)
      · exact hEscaped.1

/- A whole argument, and what is left after it -/
theorem unescape_escape (a s : List Byte) (args : List (List Byte)) :
    unescapeFrom (escape a ++ s) .outside none args =
      if needQuote a then
        (stringshareAdd a).bind fun t =>
          unescapeFrom s .outside none (args ++ [t])
      else
        unescapeFrom s .outside (if a = [] then none else some a) args := by
  unfold escape
  by_cases hQuote : needQuote a = true
  · rw [if_pos hQuote, if_pos hQuote, cons_append, unescapeFrom_open, append_assoc]
    exact unescape_quoted a s [] args
  · rw [if_neg hQuote, if_neg hQuote, unescape_plain (Bool.eq_false_iff.mpr hQuote)]
    rfl

---
-- The Round Trip
---

/- The strings with a place where shared strings are kept -/
def Shareable (a : List Byte) : Prop :=
  ∀ c, a = [c] → 0 ≤ c.toInt

/-
  The arguments that come out of a command: behind a quoted
  argument, the blank ends an empty one, and an empty
  argument at the end leaves nothing.
-/
def parsed : List (List Byte) → List (List Byte)
  | [] => []
  | [a] => if a = [] then [] else [a]
  | a :: rest =>
    if needQuote a then a :: [] :: parsed rest
    else a :: parsed rest

/-
  Only empty arguments follow a quoted one, and without a
  quoted one the last argument is not empty.
-/
def Separable : List (List Byte) → Prop
  | [] => True
  | a :: rest =>
    if needQuote a then ∀ b ∈ rest, b = []
    else if rest = [] then a ≠ []
    else Separable rest

theorem stringshareAdd_eq_some (a : List Byte) : stringshareAdd a = some a ↔ Shareable a := by
  match a with
  | [] => exact ⟨fun _ c hNil => (nomatch hNil), fun _ => rfl⟩
  | [c] =>
    show (if c.toInt < 0 then none else some [c]) = some [c] ↔ _
    constructor
    · intro hSome d hIs
      cases hIs
      by_contra hNeg
      rw [if_pos (Int.not_le.mp hNeg)] at hSome
      exact nomatch hSome
    · intro hPlace
      rw [if_neg (Int.not_lt.mpr (hPlace c rfl))]
  | c :: d :: s => exact ⟨fun _ e hOne => (nomatch hOne), fun _ => rfl⟩

theorem stringshareAdd_same {a t : List Byte} (hSome : stringshareAdd a = some t) : t = a := by
  unfold stringshareAdd at hSome
  grind

theorem mapM_stringshareAdd (l l' : List (List Byte)) :
    l.mapM stringshareAdd = some l' ↔ l' = l ∧ ∀ a ∈ l, Shareable a := by
  induction l generalizing l' with
  | nil => simp [eq_comm]
  | cons a l ih =>
    rw [mapM_cons]
    constructor
    · intro hSome
      simp only [Option.bind_eq_bind, Option.bind_eq_some_iff,
        Option.pure_def, Option.some.injEq] at hSome
      rcases hSome with ⟨t, hHere, r, hRest, rfl⟩
      rcases (ih r).mp hRest with ⟨rfl, hAll⟩
      cases stringshareAdd_same hHere
      refine ⟨rfl, ?_⟩
      rw [forall_mem_cons]
      exact ⟨(stringshareAdd_eq_some _).mp hHere, hAll⟩
    · rintro ⟨rfl, hAll⟩
      rw [forall_mem_cons] at hAll
      rw [(stringshareAdd_eq_some a).mpr hAll.1, (ih l).mpr ⟨rfl, hAll.2⟩]
      rfl

/- The blank before the next argument -/
theorem unescapeFrom_space (s : List Byte) (tmp : Option (List Byte))
    (args : List (List Byte)) :
    unescapeFrom (space :: s) .outside tmp args =
      (stringshareAdd (tmp.getD [])).bind fun t =>
        unescapeFrom s .outside none (args ++ [t]) :=
  unescapeFrom_end s tmp args (Or.inr (Or.inr ⟨rfl, by decide⟩))

/- An argument more, at the front of those to come -/
theorem mapM_cons_append (a : List Byte) (l args : List (List Byte)) :
    ((a :: l).mapM stringshareAdd).map (args ++ ·) =
      (stringshareAdd a).bind fun t =>
        (l.mapM stringshareAdd).map (args ++ [t] ++ ·) := by
  rw [mapM_cons]
  cases stringshareAdd a with
  | none => rfl
  | some t =>
    cases l.mapM stringshareAdd with
    | none => rfl
    | some l =>
      show some (args ++ t :: l) = some (args ++ [t] ++ l)
      rw [append_assoc]
      rfl

theorem unescapeFrom_build (array args : List (List Byte)) :
    unescapeFrom (build array) .outside none args =
      ((parsed array).mapM stringshareAdd).map (args ++ ·) := by
  induction array generalizing args with
  | nil => simp [build, parsed, unescapeFrom]
  | cons a rest ih =>
    cases rest with
    | nil =>
      have hLast := unescape_escape a [] args
      rw [append_nil] at hLast
      rw [build, hLast, parsed]
      by_cases hNil : a = []
      · rw [if_pos hNil, if_pos hNil, hNil, if_neg (by decide)]
        simp [unescapeFrom]
      · rw [if_neg hNil, if_neg hNil, mapM_cons_append]
        cases hShared : stringshareAdd a <;> simp [unescapeFrom, hShared]
    | cons b rest =>
      rw [build, unescape_escape]
      · rw [parsed]
        by_cases hQuote : needQuote a = true
        · -- the closing quote ends the argument, the blank
          -- an empty one
          rw [if_pos hQuote, if_pos hQuote, mapM_cons_append]
          congr 1
          funext t
          rw [unescapeFrom_space, mapM_cons_append]
          congr 1
          funext e
          exact ih _
        · rw [if_neg hQuote, if_neg hQuote, mapM_cons_append, unescapeFrom_space]
          have hDone : (if a = [] then none else some a).getD [] = a := by
            by_cases hNil : a = [] <;> simp [hNil]
          rw [hDone]
          congr 1
          funext t
          exact ih _
        · exact fun hNone => nomatch hNone
      · exact fun hNone => nomatch hNone

/- The reader of a command that was built -/
theorem unescape_command (array : List (List Byte)) :
    unescape (build array) = (parsed array).mapM stringshareAdd := by
  rw [unescape, unescapeFrom_build]
  simp

/- The empty argument that the blank leaves is the next -/
theorem parsed_shift (rest : List (List Byte)) (hSome : rest ≠ []) :
    [] :: parsed rest = rest ↔ ∀ b ∈ rest, b = [] := by
  induction rest with
  | nil => exact absurd rfl hSome
  | cons b rest ih =>
    cases rest with
    | nil =>
      rw [parsed]
      by_cases hNil : b = [] <;> simp [hNil, eq_comm]
    | cons c rest =>
      rw [forall_mem_cons, List.cons.injEq, ← ih (cons_ne_nil c rest)]
      constructor
      · rintro ⟨rfl, hRest⟩
        rw [parsed, if_neg (by decide)] at hRest
        · exact ⟨rfl, hRest⟩
        · exact fun hNone => nomatch hNone
      · rintro ⟨rfl, hRest⟩
        rw [parsed, if_neg (by decide)]
        · exact ⟨rfl, hRest⟩
        · exact fun hNone => nomatch hNone

theorem parsed_eq_iff (array : List (List Byte)) : parsed array = array ↔ Separable array := by
  induction array with
  | nil => exact ⟨fun _ => trivial, fun _ => rfl⟩
  | cons a rest ih =>
    cases rest with
    | nil =>
      rw [parsed, Separable]
      by_cases hQuote : needQuote a = true
      · have hSome : a ≠ [] := by
          rintro rfl
          exact absurd hQuote (by decide)
        simp [hQuote, hSome]
      · rw [if_neg hQuote, if_pos rfl]
        by_cases hNil : a = [] <;> simp [hNil]
    | cons b rest =>
      have hMore := cons_ne_nil b rest
      rw [Separable]
      rw [parsed]
      · by_cases hQuote : needQuote a = true
        · rw [if_pos hQuote, if_pos hQuote, List.cons.injEq, parsed_shift _ hMore]
          exact and_iff_right rfl
        · rw [if_neg hQuote, if_neg hQuote, if_neg hMore, List.cons.injEq, ih]
          exact and_iff_right rfl
      · exact fun hNone => nomatch hNone

/- Control characters are replaced on the way in -/
theorem commandArraySet_new (array : List (List Byte)) :
    ∃ command, commandArraySet .new array =
      some
        ({ filled := true
           stringCommand := some (build array)
           command := some command }, true) := by
  have hAll : ∀ l : List (List Byte), ∃ command,
      (l.mapM fun content =>
        stringshareAdd (removeInvalidChars content)) = some command := by
    intro l
    induction l with
    | nil => exact ⟨[], rfl⟩
    | cons a l ih =>
      rcases ih with ⟨command, hRest⟩
      have hPlace : Shareable (removeInvalidChars a) := by
        intro c hOne
        have hMem : c ∈ removeInvalidChars a := by
          rw [hOne]
          exact mem_singleton_self c
        rcases mem_map.mp hMem with ⟨d, -, rfl⟩
        split
        · decide
        · omega
      rw [mapM_cons, (stringshareAdd_eq_some _).mpr hPlace, hRest]
      exact ⟨_, rfl⟩
  rcases hAll array with ⟨command, hSome⟩
  refine ⟨command, ?_⟩
  rw [commandArraySet, if_neg (by decide), hSome]
  rfl

theorem roundTrip_eq (array : List (List Byte)) :
    roundTrip array = (parsed array).mapM stringshareAdd := by
  rcases commandArraySet_new array with ⟨command, hSet⟩
  rw [roundTrip, hSet, ← unescape_command]
  show (commandStringSet .new (build array)).bind _ = _
  rw [commandStringSet, if_neg (by decide)]
  cases unescape (build array) <;> rfl

/- When the arguments come back as they were -/
theorem command_round_trip_iff (array : List (List Byte)) :
    roundTrip array = some array ↔
      Separable array ∧ ∀ a ∈ array, Shareable a := by
  rw [roundTrip_eq, mapM_stringshareAdd, eq_comm, parsed_eq_iff]
  constructor
  · rintro ⟨hSame, hAll⟩
    rw [(parsed_eq_iff array).mpr hSame] at hAll
    exact ⟨hSame, hAll⟩
  · rintro ⟨hSame, hAll⟩
    rw [(parsed_eq_iff array).mpr hSame]
    exact ⟨hSame, hAll⟩

/- A blank after an argument in quotes gives an empty one. -/
theorem quoted_argument_doubles :
    roundTrip [[0x61, space, 0x62], [0x63]] ≠
      some [[0x61, space, 0x62], [0x63]] := by
  decide

end Efl.Ecore.CommandLine
