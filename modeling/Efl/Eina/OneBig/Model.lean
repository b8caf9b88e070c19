import Efl.Eina.Mempool.Model
import Efl.Lib.Words

/-
  The memory pool with one big block.

  The items are slots of one block of `malloc`.  Those that
  were freed are linked through their first bytes.  When there
  is no slot, an item gets a block of its own, with the node
  of a list behind it.  `none` is an `int` that gets too large
  and an assertion that fails.

  Addresses are numbers, and NULL is 0.

  Main declarations:
    * `Config`, `Config.init`
    * `Pool`
-/

---
-- Pools
---

namespace Efl.Eina.OneBig

/- The sizes of a `_One_Big` -/
structure Config where
  itemSize : Nat
  offsetToItemInlist : Nat
  max : Nat
  deriving DecidableEq

/-
  `_One_Big`, less its sizes, with the nodes of its list and
  the bytes of the memory
-/
structure Pool where
  usage : Int
  overCount : Int
  served : Nat
  base : Option Nat
  empty : Option Nat
  overList : Option Nat
  links : Inlist.Memory Nat
  bytes : Nat → Nat

/- `sizeof (void *)`, which is also `sizeof (Eina_Trash)` -/
def wordSize : Nat :=
  8

/- `sizeof (Eina_Inlist)` -/
def nodeSize : Nat :=
  24

/- `eina_one_big_init` -/
def Config.init (itemSize max : Int) : Option Config :=
  let itemSize := Mempool.alignof
    (if itemSize < 1 then 1 else itemSize).toNat
  let max := (if max < 1 then 1 else max).toNat
  let offset :=
    if itemSize % wordSize ≠ 0 then
      (itemSize / wordSize + 1) * wordSize
    else
      itemSize
  if CInt.intMax < offset then none
  else some ⟨itemSize, offset, max⟩

def Pool.init (bytes : Nat → Nat) : Pool where
  usage := 0
  overCount := 0
  served := 0
  base := none
  empty := none
  overList := none
  links _ := ⟨none, none, none⟩
  bytes := bytes

/- The pointer that is stored as a word -/
def ofWord (w : Nat) : Option Nat :=
  if w = 0 then none else some w

/- `eina_trash_push` -/
def trashPush (pool : Pool) (data : Nat) : Pool :=
  { pool with
    bytes := Words.store pool.bytes data wordSize
      (pool.empty.getD 0)
    empty := some data }

/- `eina_trash_pop` -/
def trashPop (pool : Pool) : Pool × Option Nat :=
  match pool.empty with
  | none => (pool, none)
  | some data =>
    ({ pool with
      empty := ofWord (Words.load pool.bytes data wordSize) },
      some data)

/- `pool->item_size * pool->max` -/
def Config.bigSize (cfg : Config) : Option Nat :=
  if CInt.intMax < cfg.itemSize * cfg.max then none
  else some (cfg.itemSize * cfg.max)

/- The size of a block for an item that has no slot -/
def Config.overSize (cfg : Config) : Nat :=
  nodeSize + cfg.offsetToItemInlist

---
-- Calls
---

/- `eina_one_big_malloc` from `retry_smaller` on -/
def retrySmaller (cfg : Config) (pool : Pool) (small : Option Nat) : Option (Pool × Option Nat) :=
  match small with
  | none => some (pool, none)
  | some mem => do
    let node := mem + cfg.offsetToItemInlist
    let links :=
      Function.update pool.links node ⟨none, none, none⟩
    let (links, list) ← Inlist.append links pool.overCount.toNat
      pool.overList node
    some
      ({ pool with
        overCount := CInt.wrap (pool.overCount + 1)
        links := links
        overList := some list }, some mem)

/- The big block is made when it is not there. -/
def takeBase (cfg : Config) (pool : Pool) (big : Option Nat) : Option Pool :=
  match pool.base with
  | some _ => some pool
  | none => do
    let _ ← cfg.bigSize
    some { pool with base := big }

/-
  `eina_one_big_malloc`, with what `malloc` would give for the
  big block and for one item
-/
def malloc (cfg : Config) (pool : Pool) (big small : Option Nat) : Option (Pool × Option Nat) :=
  if pool.empty.isSome then
    let (pool, mem) := trashPop pool
    some ({ pool with usage := CInt.wrap (pool.usage + 1) }, mem)
  else do
    let pool ← takeBase cfg pool big
    match pool.base with
    | none => retrySmaller cfg pool small
    | some base =>
      if pool.served < cfg.max then
        some
          ({ pool with
            served := pool.served + 1
            usage := CInt.wrap (pool.usage + 1) },
            some (base + pool.served * cfg.itemSize))
      else
        retrySmaller cfg pool small

/- The loop that looks for a node, which an assertion is about -/
def inList (links : Inlist.Memory Nat) : Nat → Option Nat → Nat → Bool
  | 0, _, _ => false
  | _ + 1, none, _ => false
  | fuel + 1, some it, il =>
    decide (it = il) || inList links fuel (links it).next il

/- The range of addresses that is taken for the big block -/
def InBlock (pool : Pool) (size ptr : Nat) : Prop :=
  pool.base.getD 0 ≤ ptr ∧ ptr < pool.base.getD 0 + size

instance (pool : Pool) (size ptr : Nat) : Decidable (InBlock pool size ptr) :=
  inferInstanceAs (Decidable (_ ∧ _))

/- `eina_one_big_free` -/
def free (cfg : Config) (pool : Pool) (ptr : Nat) : Option Pool := do
  let size ← cfg.bigSize
  if InBlock pool size ptr then
    let pool := trashPush pool ptr
    some { pool with usage := CInt.wrap (pool.usage - 1) }
  else
    let il := ptr + cfg.offsetToItemInlist
    if inList pool.links pool.overCount.toNat pool.overList il then
      let (links, list) := Inlist.remove pool.links pool.overList il
      some
        { pool with
          links := links
          overList := list
          overCount := CInt.wrap (pool.overCount - 1) }
    else
      none

---
-- Runs
---

/- A pool, and the items that its callers have. -/
structure State where
  pool : Pool
  live : List Nat

/-
  Calls, with the blocks that `malloc` would give, and writes
  of the callers to bytes of their items
-/
inductive Op where
  | malloc (big small : Option Nat)
  | free (ptr : Nat)
  | write (ptr i byte : Nat)

def step (cfg : Config) (st : State) : Op → Option State
  | .malloc big small => do
    let (pool, mem) ← malloc cfg st.pool big small
    some ⟨pool, mem.toList ++ st.live⟩
  | .free ptr => do
    let pool ← free cfg st.pool ptr
    some ⟨pool, st.live.erase ptr⟩
  | .write ptr i byte =>
    some
      { st with
        pool := { st.pool with
          bytes := Function.update st.pool.bytes (ptr + i) byte } }

end Efl.Eina.OneBig
