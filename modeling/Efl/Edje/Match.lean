import Efl.Lib.Bytes
import Mathlib.Logic.Function.Basic

/-
  The matcher for arrays of glob patterns.

  Main declarations:
    * `execToken`
    * `Patterns`, `initArray`
-/

---
-- Tokens
---

namespace Efl.Edje

open Bytes Function

/- `*`, `?`, `[`, `]`, `\`, `-` and `!` -/
def star : Byte := 42#8

def question : Byte := 63#8

def bracket : Byte := 91#8

def closing : Byte := 93#8

def backslash : Byte := 92#8

def dash : Byte := 45#8

def bang : Byte := 33#8

/- A byte of a string that ends with NUL. -/
def byteAt (s : List Byte) (i : Nat) : Byte :=
  s.getD i 0

/- The order of `char`, which is signed. -/
def charLe (a b : Byte) : Bool :=
  a.sle b

/- `enum status` -/
inductive Status where
  | notFound
  | found
  | syntaxError
  deriving DecidableEq

/-
  `_edje_match_patterns_exec_class_token`: the status, and how
  far it goes on.
-/
def execClassToken (status : Status) (clTok : List Byte) (c : Byte) : Status × Nat :=
  if byteAt clTok 0 = 0 then
    (.syntaxError, 0)
  else if byteAt clTok 1 = dash ∧ byteAt clTok 2 ≠ closing then
    (if charLe (byteAt clTok 0) c ∧ charLe c (byteAt clTok 2)
      then .found else status, 3)
  else
    (if c = byteAt clTok 0 then .found else status, 1)

/-
  What a token does with a character: how many bytes of the
  pattern it is, or 0 when it does not match, unless the token
  is wrong or is read behind the NUL of the pattern.
-/
inductive TokenResult where
  | overread
  | syntaxError
  | ok (m : Nat)
  deriving DecidableEq

/- `_edje_match_patterns_exec_class_complement` -/
def execClassComplement (clTok : List Byte) : Option Nat :=
  if byteAt clTok 0 = 0 then none
  else if byteAt clTok 0 = bang then some 1
  else some 0

/-
  The loop of `_edje_match_patterns_exec_class`; `none` is a
  read behind the NUL.
-/
def execClassLoop (cl : List Byte) (c : Byte) : Nat → Nat → Status → Option (Status × Nat)
  | 0, _, _ => none
  | fuel + 1, pos, status =>
    let r := execClassToken status (cl.drop pos) c
    let pos := pos + r.2
    if cl.length < pos then
      none
    else if byteAt cl pos ≠ 0 ∧ byteAt cl pos ≠ closing then
      execClassLoop cl c fuel pos r.1
    else
      some (r.1, pos)

/- `_edje_match_patterns_exec_class` -/
def execClass (cl : List Byte) (c : Byte) : TokenResult :=
  match execClassComplement (cl.drop 1) with
  | none => .syntaxError
  | some neg =>
    match execClassLoop cl c cl.length (1 + neg) .notFound with
    | none => .overread
    | some (status, pos) =>
      if status = .syntaxError ∨ byteAt cl pos = 0 then
        .syntaxError
      else if status = .found then
        .ok (if neg ≠ 0 then 0 else pos + 1)
      else
        .ok (if neg ≠ 0 then pos + 1 else 0)

/- `_edje_match_patterns_exec_token` -/
def execToken (tok : List Byte) (c : Byte) : TokenResult :=
  if byteAt tok 0 = backslash then
    if byteAt tok 1 ≠ 0 then
      .ok (if byteAt tok 1 = c then 2 else 0)
    else
      .syntaxError
  else if byteAt tok 0 = question then
    .ok 1
  else if byteAt tok 0 = bracket then
    execClass tok c
  else
    .ok (if byteAt tok 0 = c then 1 else 0)

---
-- Patterns and States
---

/- `Edje_Patterns`, without the states. -/
structure Patterns where
  patterns : List CString
  finals : List Nat
  maxLength : Nat

/-
  The loop over one pattern: where its last byte that is no
  star ends, how many of these there are, and the length.
-/
def scanPattern : Nat → Nat → Nat → List Byte → Nat × Nat × Nat
  | j, final, special, [] => (final, special, j)
  | j, final, special, b :: bs =>
    if b ≠ star then
      scanPattern (j + 1) (j + 1) (special + 1) bs
    else
      scanPattern (j + 1) final special bs

/- The final position of a pattern, and its length. -/
def finalOf (p : CString) : Nat :=
  (scanPattern 0 0 0 p.chars).1

def lengthOf (p : CString) : Nat :=
  let (_, special, j) := scanPattern 0 0 0 p.chars
  j + if special ≠ 0 then special + 1 else 0

/- `EDJE_MATCH_INIT_ARRAY`, before the states are allocated. -/
def initArray (ps : List CString) : Option Patterns :=
  if ps = [] then
    none
  else
    some
      { patterns := ps
        finals := ps.map finalOf
        maxLength := ps.foldl (fun m p => max m (lengthOf p)) 0 }

namespace Patterns

/- The pattern with an index. -/
def get (ppat : Patterns) (idx : Nat) : List Byte :=
  match ppat.patterns[idx]? with
  | none => []
  | some p => p.chars

/- The length of the arrays of states. -/
def arrayLen (ppat : Patterns) : Nat :=
  (ppat.maxLength + 1) * ppat.patterns.length

/- `ALIGN` -/
def align (size : Nat) : Nat :=
  (size + 7) / 8 * 8

/- The bytes that are allocated, if `unsigned int` has them. -/
def allocSize (ppat : Patterns) : Nat :=
  2 * (24 + (align (8 * ppat.arrayLen) + align ppat.arrayLen))

end Patterns

/- `Edje_State` -/
structure State where
  idx : Nat
  pos : Nat
  deriving DecidableEq

/- `Edje_States`; `states` has those up to `size`. -/
structure States where
  states : List State
  has : Nat → Bool

/-
  `_edje_match_states_alloc`; `none` where the size does not
  fit, and the block is smaller than the arrays.
-/
def statesAlloc (ppat : Patterns) : Option (States × States) :=
  if 2 ^ 32 ≤ ppat.allocSize then
    none
  else
    some (⟨[], fun _ => false⟩, ⟨[], fun _ => false⟩)

/- The index of a state in the array `has`. -/
def Patterns.code (ppat : Patterns) (s : State) : Nat :=
  s.idx * (ppat.maxLength + 1) + s.pos

/-
  `_edje_match_states_insert`; `none` is an access outside of
  the arrays.
-/
def States.insert (ppat : Patterns) (list : States) (s : State) : Option States :=
  let i := ppat.code s
  let size := list.states.length
  if ppat.arrayLen ≤ i then
    none
  else if i < size ∧ list.has i then
    some list
  else if ppat.arrayLen ≤ size then
    none
  else
    some
      { states := list.states ++ [s]
        has := update
          (update list.has i true) size false }

/- `_edje_match_states_clear` -/
def States.clear (list : States) : States :=
  { list with states := [] }

/- `_edje_match_patterns_exec_init_states` -/
def execInitStates (ppat : Patterns) (list : States) : States :=
  let size := ppat.patterns.length
  { states := (List.range size).map fun i => ⟨i, 0⟩
    has := (List.range size).foldl
      (fun has i =>
        update has (i * (ppat.maxLength + 1)) true)
      list.has }

---
-- The Automaton
---

/-
  The loop of `_edje_match_fn` over the states, which grow on
  the way; the last result is whether no token was wrong.
  `none` is an access outside of an array or of a pattern.
-/
def scan (ppat : Patterns) (c : Byte) : Nat → Nat → States → States →
      Option (States × States × Bool)
  | fuel, i, states, newStates =>
    match states.states[i]? with
    | none => some (states, newStates, true)
    | some s =>
      match fuel with
      | 0 => none
      | fuel + 1 =>
        let p := ppat.get s.idx
        if p.length < s.pos then
          none
        else if byteAt p s.pos = 0 then
          scan ppat c fuel (i + 1) states newStates
        else if byteAt p s.pos = star then do
          let states ← states.insert ppat
            ⟨s.idx, s.pos + 1⟩
          let newStates ← newStates.insert ppat s
          scan ppat c fuel (i + 1) states newStates
        else
          match execToken (p.drop s.pos) c with
          | .overread => none
          | .syntaxError => some (states, newStates, false)
          | .ok m =>
            if m ≠ 0 then do
              let newStates ← newStates.insert ppat
                ⟨s.idx, s.pos + m⟩
              scan ppat c fuel (i + 1) states newStates
            else
              scan ppat c fuel (i + 1) states newStates

/-
  `_edje_match_fn`: both lists, each where it was, and the
  states at the end, if no token was wrong.
-/
def matchFn (ppat : Patterns) : States → States → List Byte →
      Option (States × States × Option (List State))
  | states, newStates, [] =>
    some (states, newStates, some states.states)
  | states, newStates, c :: string =>
    if states.states = [] then
      some (states, newStates, some [])
    else do
      let (states, newStates, ok) ←
        scan ppat c ppat.arrayLen 0 states newStates.clear
      if ¬ ok then
        some (states, newStates, none)
      else do
        let (newStates, states, result) ←
          matchFn ppat newStates states string
        some (states, newStates, result)

/- `_edje_match_collection_dir_exec_finals` -/
def execFinals (finals : List Nat) (states : List State) : Bool :=
  states.any fun s => finals.getD s.idx 0 ≤ s.pos

/-
  `edje_match_collection_dir_exec`: the lists that it leaves,
  and whether a pattern matches.
-/
def exec (ppat : Patterns) (lists : States × States)
    (string : CString) : Option ((States × States) × Bool) := do
  let (first, second, result) ← matchFn ppat
    (execInitStates ppat lists.1) lists.2 string.chars
  match result with
  | none => some ((first, second), false)
  | some states => some ((first, second), execFinals ppat.finals states)

end Efl.Edje
