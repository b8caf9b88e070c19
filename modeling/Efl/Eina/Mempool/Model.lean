import Efl.Eina.Inlist.Moves
import Efl.Eina.Rbtree.Lookup
import Efl.Lib.Heap

/-
  The chained memory pool.

  The items of a pool are slots of chunks, which are blocks of
  `malloc`.  A chunk hands out its slots in order, and then
  those that were freed, which are linked through their first
  words.  `none` is an access through NULL or to a chunk that
  was freed, and a call of the red-black tree that runs over
  its stack.

  Addresses are numbers.

  Main declarations:
    * `Config`, `Pool`
    * `allocIn`, `freeIn`
-/

---
-- Pools
---

namespace Efl.Eina.Mempool

open RedBlack

/- The sizes of a `_Chained_Mempool` -/
structure Config where
  itemAlloc : Nat
  poolSize : Nat
  groupSize : Nat
  allocSize : Nat
  deriving DecidableEq

/- `_Chained_Pool`, less its links -/
structure Chunk where
  base : Option Nat
  usage : Int
  last : Option Nat
  limit : Nat

/-
  `_Chained_Mempool`, with the links of its chunks, the
  chunks, and the first words of the items.
-/
structure Pool where
  first : Option Nat
  links : Inlist.Memory Nat
  tree : Rbtree.Mem Nat
  chunks : Heap Nat Chunk
  word : Nat → Option Nat
  usage : Int
  firstFill : Option Nat

/- `sizeof (Chained_Pool)` -/
def headerSize : Nat :=
  80

/- `eina_mempool_alignof` -/
def alignof (size : Nat) : Nat :=
  let align :=
    if 16 ≤ size then 16
    else if 8 ≤ size then 8
    else if 4 ≤ size then 4
    else 2
  (size / align + (if size % align ≠ 0 then 1 else 0)) * align

/-
  The sizes that `eina_chained_mempool_init` computes; an `int`
  that gets too large is `none`.
-/
def Config.init (pageSize itemSize poolSize : Nat) : Option Config :=
  let itemAlloc := max (alignof itemSize) 8
  let aligned := alignof headerSize
  let pages :=
    ((itemAlloc * poolSize + aligned) / pageSize + 1) * pageSize
  if pageSize = 0 ∨ CInt.intMax < pages then
    none
  else
    let poolSize := (pages - aligned) / itemAlloc
    let groupSize := itemAlloc * poolSize
    some ⟨itemAlloc, poolSize, groupSize, groupSize + aligned⟩

/- The slot with an index. -/
def slot (cfg : Config) (p : Nat) (i : Nat) : Nat :=
  p + headerSize + cfg.itemAlloc * i

/- A pool without chunks. -/
def Pool.empty : Pool where
  first := none
  links _ := ⟨none, none, none⟩
  tree := ⟨none, fun _ => ⟨fun _ => none, .black⟩⟩
  chunks := ⟨∅, fun _ => ⟨none, 0, none, 0⟩⟩
  word _ := none
  usage := 0
  firstFill := none

/- `!p->base && !p->last` -/
def Chunk.Full (c : Chunk) : Prop :=
  c.base = none ∧ c.last = none

instance (c : Chunk) : Decidable c.Full :=
  inferInstanceAs (Decidable (_ ∧ _))

/- `_eina_chained_mp_pool_cmp` -/
def poolCmp (left right : Nat) : Side :=
  if left < right then .left else .right

/- `_eina_chained_mp_pool_key_cmp` -/
def keyCmp (pool : Pool) (key r : Nat) : Int :=
  if (pool.chunks.node r).limit < key then -1
  else if key < r then 1
  else 0

---
-- One Chunk
---

/- `_eina_chained_mp_pool_new`, with the block that there is -/
def poolNew (cfg : Config) (pool : Pool) (p : Nat) : Pool :=
  { pool with
    chunks := pool.chunks.alloc p
      { base := none
        usage := 0
        last := some (slot cfg p 0)
        limit := slot cfg p cfg.poolSize } }

/- An item of the chunk: `p->last`, or what `p->base` has -/
def takeItem (cfg : Config) (pool : Pool) (c : Chunk) : Chunk × Option Nat :=
  match c.last with
  | some last =>
    let next := last + cfg.itemAlloc
    ({ c with
      last := if c.limit ≤ next then none else some next },
      some last)
  | none =>
    match c.base with
    | some base => ({ c with base := pool.word base }, some base)
    | none => (c, none)

/- `_eina_chained_mempool_alloc_in` -/
def allocIn (cfg : Config) (pool : Pool) (p : Nat) : Option (Pool × Option Nat) := do
  let c ← pool.chunks.read p
  let (c, mem) := takeItem cfg pool c
  let pool ←
    if c.Full then do
      let (links, first) ← Inlist.demote pool.links
        pool.chunks.live.card pool.first p
      some { pool with links := links, first := first }
    else
      some pool
  let c := { c with usage := CInt.wrap (c.usage + 1) }
  some
    ({ pool with
      chunks := pool.chunks.set p c
      usage := CInt.wrap (pool.usage + 1) }, mem)

/-
  `_eina_chained_mempool_free_in`, and whether the chunk was
  freed
-/
def freeIn (pool : Pool) (p ptr : Nat) : Option (Pool × Bool) := do
  let c ← pool.chunks.read p
  let word := Function.update pool.word ptr c.base
  let c := { c with
    base := some ptr
    usage := CInt.wrap (c.usage - 1) }
  let pool := { pool with
    word := word
    chunks := pool.chunks.set p c
    usage := CInt.wrap (pool.usage - 1) }
  if c.usage = (0 : Int) then do
    let (links, first) := Inlist.remove pool.links pool.first p
    let tree ← Rbtree.inlineRemove poolCmp pool.tree p
    let chunks ← pool.chunks.free p
    some
      ({ pool with
        links := links
        first := first
        tree := tree
        chunks := chunks
        firstFill :=
          if pool.firstFill = some p then first
          else pool.firstFill }, true)
  else do
    let (links, first) ← Inlist.promote pool.links pool.first p
    some ({ pool with links := links, first := first }, false)

---
-- Calls
---

def Pool.isFull (pool : Pool) (p : Nat) : Option Bool := do
  let c ← pool.chunks.read p
  some (decide c.Full)

/-
  The variables `pool->first_fill` and `p` before a new chunk
  is made.
-/
def choose (pool : Pool) : Option (Option Nat × Option Nat) :=
  match pool.firstFill with
  | none => some (none, none)
  | some p => do
    if ← pool.isFull p then
      match pool.first with
      | none => some (none, some p)
      | some first => do
        if ← pool.isFull first then
          some (none, none)
        else
          some (some first, some p)
    else
      some (some p, some p)

/- `eina_chained_mempool_malloc` -/
def malloc (cfg : Config) (pool : Pool) (memory : Option Nat) : Option (Pool × Option Nat) := do
  let (firstFill, p) ← choose pool
  match p with
  | none =>
    match memory with
    | none => some ({ pool with firstFill := none }, none)
    | some p => do
      let pool := poolNew cfg pool p
      let (links, first) :=
        Inlist.prepend pool.links pool.first p
      let tree ← Rbtree.inlineInsert poolCmp pool.tree p
      let pool := { pool with
        firstFill := some p
        links := links
        first := some first
        tree := tree }
      allocIn cfg pool p
  | some _ => do
    let p ← firstFill
    allocIn cfg { pool with firstFill := firstFill } p

/- `eina_chained_mempool_free` -/
def free (pool : Pool) (ptr : Nat) : Option Pool := do
  let r ← Rbtree.inlineLookup (keyCmp pool ptr) pool.tree
    pool.chunks.live.card pool.tree.root
  match r with
  | none => some pool
  | some p => (freeIn pool p ptr).map Prod.fst

---
-- Runs
---

/- A pool, and the items that its callers have. -/
structure State where
  pool : Pool
  live : List Nat

def State.start : State where
  pool := .empty
  live := []

/-
  Calls, with the block that `malloc` would give, and writes of
  the callers to the first words of items.
-/
inductive Op where
  | malloc (memory : Option Nat)
  | free (ptr : Nat)
  | write (ptr : Nat) (word : Option Nat)

def step (cfg : Config) (st : State) : Op → Option State
  | .malloc memory => do
    let (pool, mem) ← malloc cfg st.pool memory
    some ⟨pool, mem.toList ++ st.live⟩
  | .free ptr => do
    let pool ← free st.pool ptr
    some ⟨pool, st.live.erase ptr⟩
  | .write ptr word =>
    some
      { st with
        pool := { st.pool with
          word := Function.update st.pool.word ptr word } }

/- Two blocks have no byte in common. -/
def Apart (size p q : Nat) : Prop :=
  p + size ≤ q ∨ q + size ≤ p

/- New blocks are new, and only items of the caller are used. -/
def Allowed (cfg : Config) (st : State) : Op → Prop
  | .malloc memory =>
    ∀ p, memory = some p →
      ∀ c ∈ st.pool.chunks.live, Apart cfg.allocSize p c
  | .free ptr => ptr ∈ st.live
  | .write ptr _ => ptr ∈ st.live

end Efl.Eina.Mempool
