import Efl.Lib.Bytes

/-
  The tokens of simple XML, `eina_simple_xml_parser.c`.

  A position is an index in the buffer.  The callback answers
  by the tokens it was called with, the last one included, so
  that it can keep whatever state it likes.

  Main declarations:
    * `Token`
    * `tagType`, `tagEnd`, `tagStep`, `dataStep`
-/

---
-- Scanning
---

namespace Efl.Eina.SimpleXml

open Bytes

/- `isspace` in the C locale -/
def isspace (c : Byte) : Bool :=
  c = 0x20 ∨ (0x09 ≤ c.toNat ∧ c.toNat ≤ 0x0d)

def spaceAt (buf : List Byte) (itr : Nat) : Bool :=
  (buf[itr]?).any isspace

def charAt (buf : List Byte) (itr : Nat) (c : Byte) : Bool :=
  buf[itr]? = some c

/- The first of `n` positions with the property -/
def scanFor (stop : Nat → Bool) : (n itr : Nat) → Option Nat
  | 0, _ => none
  | n + 1, itr =>
    if stop itr then some itr else scanFor stop n (itr + 1)

/- `_eina_simple_xml_whitespace_find` -/
def whitespaceFind (buf : List Byte) (itr last : Nat) : Nat :=
  (scanFor (fun i => spaceAt buf i) (last - itr) itr).getD
    (max itr last)

/- `_eina_simple_xml_whitespace_skip` -/
def whitespaceSkip (buf : List Byte) (itr last : Nat) : Nat :=
  (scanFor (fun i => !spaceAt buf i) (last - itr) itr).getD
    (max itr last)

/-
  `_eina_simple_xml_whitespace_unskip`; `itr` has one byte or
  more before it.
-/
def whitespaceUnskip (buf : List Byte) : (itr start : Nat) → Nat
  | 0, _ => 0
  | itr + 1, start =>
    if start < itr ∧ spaceAt buf itr then
      whitespaceUnskip buf itr start
    else
      itr + 1

/- `_eina_simple_xml_tag_start_find` -/
def tagStartFind (buf : List Byte) (itr : Nat) : Option Nat :=
  scanFor (fun i => charAt buf i 0x3c) (buf.length - itr) itr

/- `_eina_simple_xml_tag_end_find`, which knows of quotes -/
def tagEndFrom (buf : List Byte) : (n : Nat) → (insideQuote : Bool) → (itr : Nat) → Option Nat
  | 0, _, _ => none
  | n + 1, insideQuote, itr =>
    let insideQuote :=
      if charAt buf itr 0x22 then !insideQuote else insideQuote
    if !insideQuote &&
        (charAt buf itr 0x3e || charAt buf itr 0x3c) then
      some itr
    else
      tagEndFrom buf n insideQuote (itr + 1)

def tagEndFind (buf : List Byte) (itr : Nat) : Option Nat :=
  tagEndFrom buf (buf.length - itr) false itr

/-
  `_eina_simple_xml_tag_comment_end_find` and
  `_eina_simple_xml_tag_cdata_end_find`: two of a character,
  and then what ends a tag
-/
def doubleEndFind (c : Byte) (buf : List Byte) (itr : Nat) : Option Nat :=
  (scanFor
    (fun i => charAt buf i c && charAt buf (i + 1) c &&
      charAt buf (i + 2) 0x3e) (buf.length - itr) itr).map (· + 2)

def tagCommentEndFind : List Byte → Nat → Option Nat :=
  doubleEndFind 0x2d

def tagCdataEndFind : List Byte → Nat → Option Nat :=
  doubleEndFind 0x5d

/- `_eina_simple_xml_tag_doctype_child_end_find` -/
def tagDoctypeChildEndFind (buf : List Byte) (itr : Nat) : Option Nat :=
  scanFor (fun i => charAt buf i 0x3e) (buf.length - itr) itr

---
-- Tags
---

/- `Eina_Simple_XML_Type` -/
inductive Kind where
  | opening
  | openEmpty
  | close
  | data
  | cdata
  | error
  | processing
  | doctype
  | comment
  | ignored
  | doctypeChild
  deriving DecidableEq

/- A call of the callback -/
structure Token where
  kind : Kind
  offset : Nat
  length : Nat
  deriving DecidableEq

/- `CB`; the length is taken to an `unsigned`. -/
def token (kind : Kind) (start last : Nat) : Token where
  kind := kind
  offset := start
  length := (((last : Int) - start) % 4294967296).toNat

/- Where the loop goes on, or that it does not -/
inductive Next where
  | go (itr : Nat)
  | stop
  deriving DecidableEq

def matchesAt (buf : List Byte) (itr : Nat) (s : List Byte) : Bool :=
  s.isPrefixOf (buf.drop itr)

/- `DOCTYPE`, `--` and `[CDATA[` -/
def doctypeName : List Byte :=
  [0x44, 0x4f, 0x43, 0x54, 0x59, 0x50, 0x45]

def commentName : List Byte :=
  [0x2d, 0x2d]

def cdataName : List Byte :=
  [0x5b, 0x43, 0x44, 0x41, 0x54, 0x41, 0x5b]

/- The type of the tag at `itr`, and `toff` -/
def tagType (buf : List Byte) (itr : Nat) : Kind × Nat :=
  if charAt buf (itr + 1) 0x2f then (.close, 1)
  else if charAt buf (itr + 1) 0x3f then (.processing, 1)
  else if charAt buf (itr + 1) 0x21 then
    if itr + 10 < buf.length &&
        matchesAt buf (itr + 2) doctypeName &&
        (charAt buf (itr + 9) 0x3e || spaceAt buf (itr + 9)) then
      (.doctype, 8)
    else if itr + 7 < buf.length &&
        matchesAt buf (itr + 2) commentName then
      (.comment, 3)
    else if itr + 12 < buf.length &&
        matchesAt buf (itr + 2) cdataName then
      (.cdata, 8)
    else if itr + 3 < buf.length then
      (.doctypeChild, 1)
    else
      (.opening, 0)
  else
    (.opening, 0)

/- Where a tag of this type ends -/
def tagEnd (buf : List Byte) (kind : Kind) (itr : Nat) : Option Nat :=
  match kind with
  | .cdata => tagCdataEndFind buf itr
  | .doctypeChild => tagDoctypeChildEndFind buf itr
  | .comment => tagCommentEndFind buf itr
  | _ => tagEndFind buf itr

/- What is before the end of the tag and belongs to it -/
def tagTrim (buf : List Byte) (kind : Kind) (p : Nat) : Kind × Nat :=
  match kind with
  | .opening =>
    if charAt buf (p - 1) 0x2f then (.openEmpty, p - 1)
    else (.opening, p)
  | .cdata =>
    if matchesAt buf (p - 2) [0x5d, 0x5d] then (.cdata, p - 2)
    else (.cdata, p)
  | .processing =>
    if charAt buf (p - 1) 0x3f then (.processing, p - 1)
    else (.processing, p)
  | .comment =>
    if matchesAt buf (p - 2) [0x2d, 0x2d] then
      (.comment, p - 2)
    else (.comment, p)
  | kind => (kind, p)

/- The start and the end without the whitespace -/
def stripped (buf : List Byte) (start last : Nat) : Nat × Nat :=
  let start := whitespaceSkip buf start last
  (start, whitespaceUnskip buf last (start + 1))

/- A tag whose end is `p` -/
def tagToken (buf : List Byte) (strip : Bool) (itr : Nat)
    (kind : Kind) (toff p : Nat) : Token × Next :=
  let (kind, toff) :=
    if charAt buf p 0x3c then (Kind.error, 0) else (kind, toff)
  let (kind, last) := tagTrim buf kind p
  let (start, last) :=
    if strip ∧ kind ≠ .error ∧ kind ≠ .cdata then
      stripped buf (itr + 1 + toff) last
    else
      (itr + 1 + toff, last)
  (token kind start last,
    .go (if kind ≠ .error then p + 1 else p))

---
-- Parsing
---

/- A round of the loop at a `<` -/
def tagStep (buf : List Byte) (strip : Bool) (itr : Nat) : List Token × Next :=
  if buf.length ≤ itr + 1 then
    ([token .error itr buf.length], .stop)
  else
    let (kind, toff) := tagType buf itr
    match tagEnd buf kind (itr + 1 + toff) with
    | none => ([token .error itr buf.length], .stop)
    | some p =>
      let (t, next) := tagToken buf strip itr kind toff p
      ([t], next)

/- Data up to the next tag -/
def dataTokens (buf : List Byte) (strip : Bool) (itr : Nat) : List Token × Next :=
  let p := (tagStartFind buf itr).getD buf.length
  let last := if strip then whitespaceUnskip buf p itr else p
  ((if itr ≠ last then [token .data itr last] else []) ++
    (if strip ∧ last < p then [token .ignored last p] else []),
    .go p)

/- A round of the loop at anything else -/
def dataStep (buf : List Byte) (strip : Bool) (itr : Nat) : List Token × Next :=
  if strip then
    let p := whitespaceSkip buf itr buf.length
    let (tokens, next) := dataTokens buf strip p
    (token .ignored itr p :: tokens, next)
  else
    dataTokens buf strip itr

def step (buf : List Byte) (strip : Bool) (itr : Nat) : List Token × Next :=
  if charAt buf itr 0x3c then tagStep buf strip itr
  else dataStep buf strip itr

/- Calls, until the callback answers no -/
def report (func : List Token → Bool) : (reported tokens : List Token) → List Token × Bool
  | reported, [] => (reported, true)
  | reported, t :: tokens =>
    if func (reported ++ [t]) then
      report func (reported ++ [t]) tokens
    else
      (reported ++ [t], false)

/- The loop, for a number of rounds at most -/
def parseFrom (func : List Token → Bool) (buf : List Byte) (strip : Bool) :
    (rounds itr : Nat) → List Token → Option (Bool × List Token)
  | rounds, itr, reported =>
    if itr < buf.length then
      match rounds with
      | 0 => none
      | rounds + 1 =>
        let (tokens, next) := step buf strip itr
        let (reported, ok) := report func reported tokens
        match ok, next with
        | true, .go itr => parseFrom func buf strip rounds itr reported
        | _, _ => some (false, reported)
    else
      some (true, reported)

/- `eina_simple_xml_parse`: its answer, and its calls -/
def parse (func : List Token → Bool) (buf : List Byte) (strip : Bool) :
    Option (Bool × List Token) :=
  parseFrom func buf strip buf.length 0 []

end Efl.Eina.SimpleXml
