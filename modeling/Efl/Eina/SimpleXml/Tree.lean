import Efl.Eina.SimpleXml.Model
import Efl.Lib.CStr

/-
  The node tree of simple XML, `eina_simple_xml_parser.c`:
  how it is loaded, and how it is dumped.

  The root is the list of its children.  There is memory for
  every node, so that the callbacks answer yes.

  Main declarations:
    * `Node`, `Attribute`
    * `attributesFind`, `attributesParse`
-/

---
-- Nodes
---

namespace Efl.Eina.SimpleXml

open Bytes

/- `Eina_Simple_XML_Attribute`, with C strings -/
structure Attribute where
  key : List Byte
  value : List Byte
  deriving DecidableEq

/- The types of `Eina_Simple_XML_Node_Data` -/
inductive DataKind where
  | data
  | cdata
  | processing
  | doctype
  | doctypeChild
  | comment
  deriving DecidableEq

/- `Eina_Simple_XML_Node`, but for the root -/
inductive Node where
  | tag
      (name : List Byte) (attributes : List Attribute)
      (children : List Node)
  | data (kind : DataKind) (contents : List Byte)

---
-- Attributes
---

/- The bytes of the buffer from `start` to `last` -/
def slice (buf : List Byte) (start last : Nat) : List Byte :=
  (buf.drop start).take (last - start)

/-
  `eina_simple_xml_tag_attributes_find`; the scan stops at a
  space or at an equals sign.
-/
def attributesFind (buf : List Byte) (start last : Nat) : Option Nat :=
  match
      scanFor (fun i => spaceAt buf i || charAt buf i 0x3d)
        (last - start) start with
  | none => none
  | some itr =>
    if spaceAt buf itr then
      let itr := whitespaceSkip buf (itr + 1) last
      if itr = last then none else some itr
    else
      some start

/-
  Where a value starts, whose key ends at `keyEnd`; `none`
  where there is no equals sign
-/
def valueStart (buf : List Byte) (keyEnd last : Nat) : Option Nat :=
  (scanFor (fun i => charAt buf i 0x3d)
    (last - keyEnd) keyEnd).map
      fun i => whitespaceSkip buf (i + 1) last

/-
  The value at `value`: where it starts behind the quote, and
  where it ends; one byte more is searched for the quote.
-/
def valueSpan (buf : List Byte) (value last : Nat) : Option (Nat × Nat) :=
  if charAt buf value 0x22 then
    (scanFor (fun i => charAt buf i 0x22)
      (last - value) (value + 1)).map (value + 1, ·)
  else if charAt buf value 0x27 then
    (scanFor (fun i => charAt buf i 0x27)
      (last - value) (value + 1)).map (value + 1, ·)
  else
    some (value, whitespaceFind buf value last)

/-
  `eina_simple_xml_attributes_parse`, for a number of rounds
  at most.  A round with an empty key goes on where it was.
-/
def attributesFrom (buf : List Byte) (last : Nat) : (rounds itr : Nat) → List Attribute →
      Option (Bool × List Attribute)
  | rounds, itr, found =>
    if itr < last then
      match rounds with
      | 0 => none
      | rounds + 1 =>
        let key := whitespaceSkip buf itr last
        let keyEnd :=
          (scanFor
            (fun i => charAt buf i 0x3d || spaceAt buf i)
            (last - key) key).getD last
        if key = last then
          some (true, found)
        else if keyEnd = last then
          some (false, found)
        else if keyEnd = key then
          attributesFrom buf last rounds itr found
        else
          match valueStart buf keyEnd last with
          | none => some (false, found)
          | some value =>
            if value = last then
              some (false, found)
            else
              match valueSpan buf value last with
              | none => some (false, found)
              | some (value, valueEnd) =>
                attributesFrom buf last rounds
                  (valueEnd + 1)
                  (found ++
                    [{ key :=
                        CStr.text (slice buf key keyEnd)
                       value :=
                        CStr.text
                          (slice buf value valueEnd) }])
    else
      some (true, found)

def attributesParse (buf : List Byte) (itr last : Nat) : Option (Bool × List Attribute) :=
  attributesFrom buf last (last - itr) itr []

---
-- Loading
---

/- A tag that is open, and what it has so far -/
structure OpenTag where
  name : List Byte
  attributes : List Attribute
  children : List Node

/-
  `struct eina_simple_xml_node_load_ctxt`: the open tags, the
  current one first, and what the root has.  A tag joins its
  parent when it is left; the parent has no child in between.
-/
structure Ctxt where
  current : List OpenTag
  root : List Node

namespace Ctxt

/- The appends to `ctx->current->children` -/
def add (ctx : Ctxt) (nodes : List Node) : Ctxt :=
  match ctx.current with
  | [] => { ctx with root := ctx.root ++ nodes }
  | tag :: above =>
    { ctx with
      current :=
        { tag with children := tag.children ++ nodes } ::
          above }

def enter (ctx : Ctxt) (name : List Byte) (attributes : List Attribute) : Ctxt :=
  { ctx with
    current := ⟨name, attributes, []⟩ :: ctx.current }

def leave (ctx : Ctxt) : Ctxt :=
  match ctx.current with
  | [] => ctx
  | tag :: above =>
    { ctx with current := above }.add
      [.tag tag.name tag.attributes tag.children]

/- The root, when the open tags are put below their parents -/
def closeAll (root : List Node) : List OpenTag → List Node → List Node
  | [], nodes => root ++ nodes
  | tag :: above, nodes =>
    closeAll root above
      [.tag tag.name tag.attributes (tag.children ++ nodes)]

end Ctxt

/- The name and the attributes of a tag -/
def tagParse (buf : List Byte) (start last : Nat) : Option (List Byte × List Attribute) :=
  let attrs := attributesFind buf start last
  let nameEnd := whitespaceUnskip buf (attrs.getD last) start
  let name := CStr.text (slice buf start nameEnd)
  match attrs with
  | none => some (name, [])
  | some attrs =>
    (attributesParse buf attrs last).map fun (_, found) =>
      (name, found)

/- `</>` closes the tag for us. -/
def closeParse (buf : List Byte) (start last : Nat) (ctx : Ctxt) : Ctxt :=
  match ctx.current with
  | [] => ctx
  | tag :: _ =>
    let closed :=
      slice buf start (whitespaceUnskip buf last start)
    if closed = [] ∨ closed = tag.name then ctx.leave else ctx

/-
  `_eina_simple_xml_node_parse`; `none` when it does not come
  back.
-/
def nodeParse (buf : List Byte) (ctx : Ctxt) (t : Token) : Option Ctxt :=
  let last := t.offset + t.length
  let contents := slice buf t.offset last
  match t.kind with
  | .opening =>
    (tagParse buf t.offset last).map fun (name, found) =>
      ctx.enter name found
  | .openEmpty =>
    (tagParse buf t.offset last).map fun (name, found) =>
      (ctx.enter name found).leave
  | .close => some (closeParse buf t.offset last ctx)
  | .data => some (ctx.add [.data .data contents])
  | .cdata => some (ctx.add [.data .cdata contents])
  | .processing => some (ctx.add [.data .processing contents])
  | .doctype => some (ctx.add [.data .doctype contents])
  | .doctypeChild => some (ctx.add [.data .doctypeChild contents])
  | .comment => some (ctx.add [.data .comment contents])
  | .error => some ctx
  | .ignored => some ctx

/- `eina_simple_xml_node_load` -/
def nodeLoad (buf : List Byte) (strip : Bool) : Option (List Node) :=
  match parse (fun _ => true) buf strip with
  | none => none
  | some (_, tokens) =>
    (tokens.foldlM (nodeParse buf) ⟨[], []⟩).map fun ctx =>
      Ctxt.closeAll ctx.root ctx.current []

---
-- Dumping
---

/- `_eina_simple_xml_node_dump_indent`, given an indent -/
def dumpIndent (indent : Option (List Byte)) (level : Nat) : List Byte :=
  (List.replicate level (indent.getD [])).flatten

def dumpNewline (indent : Option (List Byte)) : List Byte :=
  if indent.isSome then [0x0a] else []

/- ` %s="%s"` -/
def Attribute.dump (a : Attribute) : List Byte :=
  [0x20] ++ a.key ++ [0x3d, 0x22] ++ a.value ++ [0x22]

/- `_eina_simple_xml_node_tag_attributes_append` -/
def attributesDump (attributes : List Attribute) : List Byte :=
  (attributes.map Attribute.dump).flatten

/- What is written before and behind the contents -/
def DataKind.before : DataKind → List Byte
  | .data => []
  | .cdata => [0x3c, 0x21] ++ cdataName
  | .processing => [0x3c, 0x3f]
  | .doctype => [0x3c, 0x21] ++ doctypeName ++ [0x20]
  | .doctypeChild => [0x3c, 0x21]
  | .comment => [0x3c, 0x21] ++ commentName ++ [0x20]

def DataKind.behind : DataKind → List Byte
  | .data => []
  | .cdata => [0x5d, 0x5d, 0x3e]
  | .processing => [0x20, 0x3f, 0x3e]
  | .doctype => [0x3e]
  | .doctypeChild => [0x3e]
  | .comment => [0x20] ++ commentName ++ [0x3e]

/- `</name>` -/
def closeDump (name : List Byte) : List Byte :=
  [0x3c, 0x2f] ++ name ++ [0x3e]

mutual

/- `_eina_simple_xml_node_dump` -/
def Node.dump (indent : Option (List Byte)) (level : Nat) : Node → List Byte
  | .tag name attributes children =>
    dumpIndent indent level ++ [0x3c] ++ name ++
      attributesDump attributes ++
      (if children.isEmpty then [0x2f, 0x3e] else [0x3e]) ++
      dumpNewline indent ++
      (if children.isEmpty then []
      else
        childrenDump indent (level + 1) children ++
          dumpIndent indent level ++ closeDump name ++
          dumpNewline indent)
  | .data kind contents =>
    dumpIndent indent level ++ kind.before ++ contents ++
      kind.behind ++ dumpNewline indent

/- `_eina_simple_xml_node_children_dump` -/
def childrenDump (indent : Option (List Byte)) (level : Nat) : List Node → List Byte
  | [] => []
  | node :: nodes =>
    node.dump indent level ++ childrenDump indent level nodes

end

/- `eina_simple_xml_node_dump` of the root: a C string -/
def nodeDump (root : List Node) (indent : Option (List Byte)) : List Byte :=
  CStr.text (childrenDump indent 0 root)

end Efl.Eina.SimpleXml
