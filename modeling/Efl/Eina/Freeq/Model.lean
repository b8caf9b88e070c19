import Efl.Lib.CInt
import Efl.Lib.Heap
import Efl.Lib.Runs

/-
  The free queue.

  Pointers to free are kept in blocks of 42 items, which are
  linked from the oldest to the newest.  When there are more
  of them than the limits allow, the oldest are freed.  `none`
  is an access to a block that was freed or to an item that
  was not written, and a loop that runs out of its fuel.

  The locks, and the patterns that small blocks are filled
  with, are left out.

  Main declarations:
    * `FreeQ`
    * `process`, `flushNolock`
-/

---
-- Queues
---

namespace Efl.Eina.Freeq

/- `_Eina_FreeQ_Item`; no function stands for `free`. -/
structure Item where
  ptr : Nat
  freeFunc : Option Nat
  size : Nat
  deriving DecidableEq

/- `_Eina_FreeQ_Block`, where `stop` is its `end` -/
structure Block where
  start : Nat
  stop : Nat
  next : Option Nat
  items : Nat → Option Item

/-
  `_Eina_FreeQ`, with the blocks, and with the items that were
  given to their functions.
-/
structure FreeQ where
  count : Int
  countMax : Int
  memMax : Nat
  memTotal : Nat
  blocks : Option Nat
  blockLast : Option Nat
  bypass : Bool
  postponed : Bool
  heap : Heap Nat Block
  freed : List Item

/- `ITEM_BLOCK_COUNT` -/
def itemBlockCount : Nat :=
  42

/- The values of a `size_t` -/
def sizeMax : Nat :=
  18446744073709551616

/-
  `_eina_freeq_new_default`, with the limits that there are
  when it is called
-/
def newDefault (totalMax : Int) (memMax : Nat) : FreeQ where
  count := 0
  countMax := totalMax
  memMax := memMax
  memTotal := 0
  blocks := none
  blockLast := none
  bypass := false
  postponed := false
  heap := ⟨∅, fun _ => ⟨0, 0, none, fun _ => none⟩⟩
  freed := []

/- `_eina_freeq_free_do` -/
def FreeQ.freeDo (fq : FreeQ) (item : Item) : FreeQ :=
  { fq with freed := fq.freed ++ [item] }

/-
  `_eina_freeq_block_append`, with the block that `malloc`
  gives
-/
def blockAppend (fq : FreeQ) (memory : Option Nat) : Option (FreeQ × Bool) :=
  match memory with
  | none => some (fq, false)
  | some fb => do
    let heap := fq.heap.alloc fb ⟨0, 0, none, fun _ => none⟩
    let fq ←
      match fq.blocks with
      | none => some { fq with heap := heap, blocks := some fb }
      | some _ => do
        let last ← fq.blockLast
        let heap ← heap.modify last fun block =>
          { block with next := some fb }
        some { fq with heap := heap }
    some ({ fq with blockLast := some fb }, true)

/- `_eina_freeq_process` -/
def process (fq : FreeQ) : Option FreeQ :=
  match fq.blocks with
  | none => some fq
  | some b => do
    let fb ← fq.heap.read b
    let item ← fb.items fb.start
    let fq := fq.freeDo item
    let fb := { fb with start := fb.start + 1 }
    let fq := { fq with
      memTotal := (fq.memTotal + sizeMax - item.size) % sizeMax
      heap := fq.heap.set b fb
      count := CInt.wrap (fq.count - 1) }
    if fb.start = fb.stop then do
      let heap ← fq.heap.free b
      some
        { fq with
          heap := heap
          blocks := fb.next
          blockLast :=
            if fb.next = none then none else fq.blockLast }
    else
      some fq

/- `while (..) _eina_freeq_process (fq);` -/
def processWhile (p : FreeQ → Prop) [DecidablePred p] : Nat → FreeQ → Option FreeQ
  | 0, _ => none
  | fuel + 1, fq =>
    if p fq then do
      let fq ← process fq
      processWhile p fuel fq
    else
      some fq

/- The condition of the loop of `_eina_freeq_flush_nolock` -/
def FreeQ.Over (fq : FreeQ) : Prop :=
  fq.countMax < fq.count ∨ fq.memMax < fq.memTotal

instance : DecidablePred FreeQ.Over :=
  fun fq => inferInstanceAs
    (Decidable (fq.countMax < fq.count ∨ fq.memMax < fq.memTotal))

/- The condition of the loop of `eina_freeq_clear` -/
def FreeQ.Counts (fq : FreeQ) : Prop :=
  0 < fq.count

instance : DecidablePred FreeQ.Counts :=
  fun fq => inferInstanceAs (Decidable (0 < fq.count))

/- `_eina_freeq_flush_nolock` -/
def flushNolock (fuel : Nat) (fq : FreeQ) : Option FreeQ :=
  if fq.postponed then
    some fq
  else
    processWhile FreeQ.Over fuel fq

---
-- Calls
---

/- `eina_freeq_count_max_set` -/
def countMaxSet (fuel : Nat) (fq : FreeQ) (count : Int) : Option FreeQ :=
  if fq.postponed then
    some fq
  else
    let count := if count < 0 then -1 else count
    flushNolock fuel
      { fq with bypass := false, countMax := count }

/- `eina_freeq_mem_max_set` -/
def memMaxSet (fuel : Nat) (fq : FreeQ) (mem : Nat) : Option FreeQ :=
  if fq.postponed then
    some fq
  else
    flushNolock fuel { fq with bypass := false, memMax := mem }

/- `eina_freeq_clear` -/
def clear (fuel : Nat) (fq : FreeQ) : Option FreeQ :=
  processWhile FreeQ.Counts fuel fq

/- The loop of `eina_freeq_reduce`, for a `count` above 0 -/
def reduceLoop : Nat → FreeQ → Option FreeQ
  | 0, fq => some fq
  | count + 1, fq =>
    if 0 < fq.count then do
      let fq ← process fq
      reduceLoop count fq
    else
      some fq

/- `eina_freeq_reduce` -/
def reduce (fq : FreeQ) (count : Int) : Option FreeQ :=
  reduceLoop count.toNat fq

/- `!fq->block_last || fq->block_last->end == ITEM_BLOCK_COUNT` -/
def FreeQ.needsBlock (fq : FreeQ) : Option Bool :=
  match fq.blockLast with
  | none => some true
  | some last => do
    let fb ← fq.heap.read last
    some (decide (fb.stop = itemBlockCount))

/- The item is written behind the ones of the last block. -/
def FreeQ.write (fq : FreeQ) (item : Item) : Option FreeQ := do
  let last ← fq.blockLast
  let fb ← fq.heap.read last
  if fb.stop < itemBlockCount then
    some
      { fq with
        heap := fq.heap.set last
          { fb with
            items := Function.update fb.items fb.stop (some item)
            stop := fb.stop + 1 }
        count := CInt.wrap (fq.count + 1)
        memTotal := (fq.memTotal + item.size) % sizeMax }
  else
    none

/- `eina_freeq_ptr_add`, with the block that `malloc` would give -/
def ptrAdd (fuel : Nat) (fq : FreeQ) (ptr freeFunc : Option Nat)
    (size : Nat) (memory : Option Nat) : Option FreeQ :=
  match ptr with
  | none => some fq
  | some ptr =>
    let item : Item := ⟨ptr, freeFunc, size⟩
    if fq.bypass then
      some (fq.freeDo item)
    else do
      let (fq, room) ←
        if ← fq.needsBlock then
          blockAppend fq memory
        else
          some (fq, true)
      if room then do
        let fq ← fq.write item
        flushNolock fuel fq
      else if fq.postponed then
        some fq
      else
        some (fq.freeDo item)

---
-- Runs
---

/-
  A queue, whether it was freed, and the items that were
  added.
-/
structure State where
  fq : FreeQ
  gone : Bool
  added : List Item

def State.start (totalMax : Int) (memMax : Nat) : State where
  fq := newDefault totalMax memMax
  gone := false
  added := []

inductive Op where
  | ptrAdd
      (ptr freeFunc : Option Nat)
      (size : Nat)
      (memory : Option Nat)
  | countMaxSet (count : Int)
  | memMaxSet (mem : Nat)
  | reduce (count : Int)
  | clear
  | free
  deriving DecidableEq

/- The item that a call adds -/
def Op.item : Op → Option Item
  | .ptrAdd (some ptr) freeFunc size _ => some ⟨ptr, freeFunc, size⟩
  | _ => none

/- `eina_freeq_free` begins with `eina_freeq_clear`. -/
def call (fuel : Nat) (fq : FreeQ) : Op → Option FreeQ
  | .ptrAdd ptr freeFunc size memory =>
    ptrAdd fuel fq ptr freeFunc size memory
  | .countMaxSet count => countMaxSet fuel fq count
  | .memMaxSet mem => memMaxSet fuel fq mem
  | .reduce count => reduce fq count
  | .clear => clear fuel fq
  | .free => clear fuel fq

/- A call, on a queue that was not freed -/
def step (fuel : Nat) (st : State) (op : Op) : Option State :=
  if st.gone then
    none
  else do
    let fq ← call fuel st.fq op
    some
      { fq := fq
        gone := decide (op = .free)
        added := st.added ++ op.item.toList }

end Efl.Eina.Freeq
