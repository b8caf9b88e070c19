import Efl.Eina.Rbtree.Lookup
import Efl.Lib.Bytes
import Efl.Lib.CSize
import Efl.Lib.Heap

/-
  The shared strings of `eina_share_common`.

  `N` is the type of the addresses of blocks.  A node is a
  block of its own, or is built into the block of a head.
  Each tree has its own memory for the links of its heads.
  The hash of a string may be any function of its bytes.
  `none` is a call that runs into undefined behaviour.

  Main declarations:
    * `Share`, with `Ptr`, `Node` and `Head`
    * `headFind`, `headRemoveNode`, `headFromNode`
-/

---
-- Nodes and Heads
---

namespace Efl.Eina.ShareCommon

open Bytes Function

/- The address of a node -/
inductive Ptr (N : Type) where
  | builtin (head : N)
  | own (node : N)
  deriving DecidableEq

/- `_Eina_Share_Common_Node` -/
structure Node (N : Type) where
  next : Option (Ptr N)
  length : Nat
  references : Nat
  str : List Byte

/- `_Eina_Share_Common_Head`, but for its node -/
structure Head (N : Type) where
  hash : Int
  head : Option (Ptr N)

/- The buckets of `_Eina_Share_Common`, and what is allocated -/
structure Share (N : Type) where
  heads : Heap N (Head N)
  nodes : Heap (Ptr N) (Node N)
  buckets : Nat → Rbtree.Mem N

variable {N : Type} [DecidableEq N]

/- `EINA_SHARE_COMMON_BUCKET_IDX` -/
def bucketIdx (hash : Int) : Nat :=
  (hash / 256 % 256).toNat

/- `EINA_SHARE_COMMON_NODE_HASH` -/
def nodeHash (hash : Int) : Int :=
  hash % 256

/- `_eina_share_common_cmp` -/
def cmp (s : Share N) (hash : Int) (ed : N) : Int :=
  nodeHash (s.heads.node ed).hash - hash

/- `_eina_share_common_node` -/
def nodeCmp (s : Share N) (left right : N) : RedBlack.Side :=
  if nodeHash (s.heads.node left).hash -
      nodeHash (s.heads.node right).hash < 0 then
    .left
  else
    .right

/- `_eina_share_common_find_hash` -/
def findHash (s : Share N) (bucket : Nat) (hash : Int) : Option (Option N) :=
  Rbtree.inlineLookup (cmp s hash) (s.buckets bucket)
    s.heads.live.card (s.buckets bucket).root

/- The allocated nodes with another content of one of them -/
def modify (s : Share N) (p : Ptr N) (f : Node N → Node N) : Option (Share N) :=
  (s.nodes.modify p f).map fun nodes => { s with nodes := nodes }

/- The assignment `ed->head = p` -/
def setHead (s : Share N) (ed : N) (p : Option (Ptr N)) : Option (Share N) :=
  (s.heads.modify ed fun head => { head with head := p }).map
    fun heads => { s with heads := heads }

---
-- Blocks
---

/- `offsetof(Eina_Share_Common_Head, builtin_node.str)` -/
def headSize : Nat :=
  60

/- `offsetof(Eina_Share_Common_Node, str)` -/
def nodeSize : Nat :=
  20

/- A sum of two `unsigned int` -/
def uintAdd (a b : Nat) : Nat :=
  (a + b) % 4294967296

/-
  An `unsigned int` that is kept as an `int` and converted to
  `size_t`: half of the values are negative.
-/
def sizeOfInt (n : Nat) : Nat :=
  if n < 2147483648 then n
  else CSize.sub n 4294967296

/-
  `malloc`, with the address that is free if there is memory;
  no block is larger than half of the memory.
-/
def malloc (block : Option N) (size : Nat) : Option N :=
  if size ≤ CSize.blockMax then block else none

/-
  `_eina_share_common_head_alloc`, with the room that is left
  for the string
-/
def headAlloc (block : Option N) (slen : Nat) : Option (N × Nat) :=
  let size := CSize.add headSize (sizeOfInt slen)
  (malloc block size).map fun h => (h, size - headSize)

/- `_eina_share_common_node_alloc`, with the same -/
def nodeAlloc (block : Option N) (slen nullSize : Nat) : Option (N × Nat) :=
  let size := CSize.add (CSize.add nodeSize slen) nullSize
  (malloc block size).map fun n => (n, size - nodeSize)

/-
  `_eina_share_common_node_init`, for the room that there is;
  the length is an `int` here, and `memcpy` gets it as a
  `size_t`.
-/
def nodeInit (room : Nat) (str : List Byte) (nullSize : Nat) : Option (Node N) :=
  let slen := sizeOfInt str.length
  if slen = str.length ∧ slen + nullSize ≤ room then
    some
      { next := none
        length := str.length
        references := 1
        str := str ++ List.replicate nullSize 0 }
  else
    none

/- A head at its address, with its node, in its tree -/
def putHead (s : Share N) (bucket : Nat) (hash : Int) (h : N)
    (node : Node N) : Option (Share N × Option (Ptr N)) := do
  let s :=
    { s with
      heads := s.heads.alloc h
        { hash := hash, head := some (.builtin h) }
      nodes := s.nodes.alloc (.builtin h) node }
  let tree ← Rbtree.inlineInsert (nodeCmp s) (s.buckets bucket) h
  some ({ s with
    buckets := update s.buckets bucket tree },
    some (.builtin h))

/- `_eina_share_common_add_head` -/
def addHead (block : Option N) (s : Share N) (bucket : Nat) (hash : Int) (str : List Byte)
    (nullSize : Nat) : Option (Share N × Option (Ptr N)) :=
  match headAlloc block (uintAdd str.length nullSize) with
  | none => some (s, none)
  | some (h, room) =>
    (nodeInit room str nullSize).bind (putHead s bucket hash h)

/- `_eina_share_common_del_head` -/
def delHead (s : Share N) (bucket : Nat) (ed : N) : Option (Share N) := do
  let tree ← Rbtree.inlineRemove (nodeCmp s) (s.buckets bucket) ed
  let heads ← s.heads.free ed
  let nodes ← s.nodes.free (.builtin ed)
  some
    { heads := heads
      nodes := nodes
      buckets := update s.buckets bucket tree }

---
-- Lists
---

/- `_eina_share_common_node_eq` -/
def nodeEq (node : Node N) (str : List Byte) : Bool :=
  node.length = str.length ∧ node.str.take str.length = str

/- The loop of `_eina_share_common_head_find` -/
def findFrom (s : Share N) (str : List Byte) : Nat → Ptr N → Option (Ptr N) →
      Option (Option (Ptr N × Ptr N))
  | _, _, none => some none
  | 0, _, some _ => none
  | fuel + 1, prev, some p => do
    let node ← s.nodes.read p
    if nodeEq node str then some (some (prev, p))
    else findFrom s str fuel p node.next

/- "promote node except builtin_node" -/
def promote (s : Share N) (ed : N) (prev p : Ptr N) : Option (Share N) := do
  let node ← s.nodes.read p
  match node.next with
  | none => some s
  | some next =>
    let head ← s.heads.read ed
    let s ← modify s prev fun node =>
      { node with next := some next }
    let s ← modify s p fun node =>
      { node with next := head.head }
    setHead s ed (some p)

/- `_eina_share_common_head_find` -/
def headFind (s : Share N) (ed : N) (str : List Byte) : Option (Share N × Option (Ptr N)) := do
  let head ← s.heads.read ed
  let first ← head.head
  let node ← s.nodes.read first
  if nodeEq node str then some (s, some first)
  else
    match ← findFrom s str s.nodes.live.card first node.next with
    | none => some (s, none)
    | some (prev, p) => do
      let s ← promote s ed prev p
      some (s, some p)

/- The loop of `_eina_share_common_head_remove_node` -/
def removeFrom (s : Share N) (node : Ptr N) :
    Nat → Ptr N → Option (Ptr N) → Option (Share N × Bool)
  | _, _, none => some (s, false)
  | 0, _, some _ => none
  | fuel + 1, prev, some cur => do
    let curNode ← s.nodes.read cur
    if cur = node then do
      let s ← modify s prev fun prevNode =>
        { prevNode with next := curNode.next }
      some (s, true)
    else
      removeFrom s node fuel cur curNode.next

/- `_eina_share_common_head_remove_node` -/
def headRemoveNode (s : Share N) (ed : N) (node : Ptr N) : Option (Share N × Bool) := do
  let head ← s.heads.read ed
  let first ← head.head
  let firstNode ← s.nodes.read first
  if first = node then do
    let s ← setHead s ed firstNode.next
    some (s, true)
  else
    removeFrom s node s.nodes.live.card first firstNode.next

/-
  `_eina_share_common_head_from_node`; a node that is not
  built into a head has no head before it.
-/
def headFromNode (s : Share N) : Nat → Ptr N → Option N
  | 0, _ => none
  | fuel + 1, p => do
    let node ← s.nodes.read p
    match node.next with
    | some next => headFromNode s fuel next
    | none =>
      match p with
      | .builtin ed => some ed
      | .own _ => none

---
-- Calls
---

/- The assignment `node->references++` -/
def addReference (s : Share N) (p : Ptr N) : Option (Share N) :=
  modify s p fun node =>
    { node with
      references := uintAdd node.references 1 }

/- A node at its address, in front of the list of its head -/
def putNode (s : Share N) (ed el : N) (node : Node N) : Option (Share N × Option (Ptr N)) := do
  let head ← s.heads.read ed
  let s :=
    { s with
      nodes := s.nodes.alloc (.own el)
        { node with next := head.head } }
  let s ← setHead s ed (some (.own el))
  some (s, some (.own el))

/- `eina_share_common_add_length` after a head was found -/
def addNode (block : Option N) (s : Share N) (ed : N) (str : List Byte)
    (nullSize : Nat) : Option (Share N × Option (Ptr N)) := do
  match ← headFind s ed str with
  | (s, some el) =>
    let s ← addReference s el
    some (s, some el)
  | (s, none) =>
    match nodeAlloc block str.length nullSize with
    | none => some (s, none)
    | some (el, room) =>
      (nodeInit room str nullSize).bind (putNode s ed el)

/- `eina_share_common_add_length` -/
def addLength (hash : List Byte → Int) (block : Option N) (s : Share N) (str : List Byte)
    (nullSize : Nat) : Option (Share N × Option (Ptr N)) :=
  if str.length = 0 then
    some (s, none)
  else do
    let h := hash str
    let bucket := bucketIdx h
    match ← findHash s bucket (nodeHash h) with
    | none => addHead block s bucket h str nullSize
    | some ed => addNode block s ed str nullSize

/- `eina_share_common_ref` -/
def ref (s : Share N) (str : Ptr N) : Option (Share N) :=
  addReference s str

/- The part of `eina_share_common_del` for another node -/
def delNode (s : Share N) (ed : N) (node : Ptr N) : Option (Share N × Bool) :=
  if node ≠ .builtin ed then do
    let (s, removed) ← headRemoveNode s ed node
    if removed then
      match node with
      | .builtin _ => none
      | .own _ => do
        let nodes ← s.nodes.free node
        some ({ s with nodes := nodes }, true)
    else
      some (s, false)
  else
    some (s, true)

/- The test `!ed->head || ed->head->references == 0` -/
def headUnused (s : Share N) (ed : N) : Option Bool := do
  let head ← s.heads.read ed
  match head.head with
  | none => some true
  | some first =>
    let node ← s.nodes.read first
    some (node.references == 0)

/- `eina_share_common_del` -/
def del (s : Share N) (str : Ptr N) : Option (Share N × Bool) := do
  let node ← s.nodes.read str
  if 1 < node.references then do
    let s ← modify s str fun node =>
      { node with references := node.references - 1 }
    some (s, true)
  else do
    let s ← modify s str fun node => { node with references := 0 }
    let ed ← headFromNode s s.nodes.live.card str
    let (s, removed) ← delNode s ed str
    if removed then do
      let unused ← headUnused s ed
      if unused then do
        let head ← s.heads.read ed
        let s ← delHead s (bucketIdx head.hash) ed
        some (s, true)
      else
        some (s, true)
    else
      some (s, false)

end Efl.Eina.ShareCommon
