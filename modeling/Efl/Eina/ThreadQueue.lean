import Mathlib.Data.List.Basic
import Efl.Lib.CInt
import Efl.Lib.Runs

/-
  The thread queue, `eina_thread_queue.c`.

  What a thread does between two accesses to memory that other
  threads access too is one move; a move that has to wait for a
  lock or for the semaphore cannot be made.  Blocks are numbered
  in the order they are made, messages in the order they are
  sent, and there is memory for all of them.  `minSize` is
  `MIN_SIZE`.

  Main declarations:
    * `Block`, `Stage`, `Reading`, `Queue`
    * `msgAlloc`, `Move`, `step`
    * `step_inv`
    * `returned_done`
-/

---
-- Queues
---

namespace Efl.ThreadQueue

open List

/- A message in the data of a block, and its number -/
structure Msg where
  offset : Int
  size : Int
  number : Nat
  deriving DecidableEq

/-
  `Eina_Thread_Queue_Msg_Block`; `locked` is whether
  `lock_non_0_ref` is taken.
-/
structure Block where
  locked : Bool
  ref : Int
  size : Int
  first : Int
  last : Int
  full : Bool
  data : List Msg

/-
  How far the sender of a message is: in `_msg_alloc` or in
  `_msg_alloc_done` with its `ref`, or between the calls
-/
inductive Stage where
  | allocating (ref : Int)
  | writing
  | completing (ref : Int)
  | waking
  | done
  deriving DecidableEq

/- Whether `eina_thread_queue_send_done` was called -/
@[grind] def Stage.called : Stage → Bool
  | .allocating _ | .writing => false
  | .completing _ | .waking | .done => true

structure Send where
  blk : Nat
  stage : Stage

/- What a fetch returns: `*allocref` and the message -/
structure Got where
  blk : Nat
  msg : Option Nat
  deriving DecidableEq

/-
  How far the reader is: in `_msg_fetch`, where it may have
  `lock_write` and `ref`, or in `poll` with what it fetched
-/
inductive Reading where
  | idle
  | fetching (poll : Bool)
  | detaching (poll : Bool) (blk : Nat) (ref : Int)
  | fetched (got : Got)

inductive Holder where
  | sender (msg : Nat)
  | reader
  deriving DecidableEq

/-
  `Eina_Thread_Queue`; `data` has the blocks from `thq->data`
  to `thq->last`.  `lockRead` is the reader's alone.
-/
structure Queue where
  blocks : List Block
  data : List Nat
  read : Option Nat
  lockWrite : Option Holder
  sem : Nat
  sends : List Send
  reader : Reading
  returned : List Got

def Queue.new : Queue :=
  ⟨[], [], none, none, 0, [], .idle, []⟩

---
-- The Senders
---

/- `_eina_thread_queue_msg_block_new` -/
@[grind] def Block.new (size : Int) : Block :=
  ⟨false, 0, size, 0, 0, false, []⟩

/- A message at the end of a block -/
@[grind] def Block.add (b : Block) (size : Int)
    (number : Nat) : Block :=
  { b with
    last := b.last + size
    full := b.full || b.last + size == b.size
    data := b.data ++ [⟨b.last, size, number⟩]
    ref := b.ref + 1 }

/- A block that is made is the last one of the chain. -/
def grow (q : Queue) (size : Int) : Queue × Nat × Int :=
  ({ q with
     blocks := q.blocks ++ [.new size]
     data := q.data ++ [q.blocks.length] },
    q.blocks.length, size)

/-
  Where a message goes, and its size there; a new block has
  room for what it is made for.
-/
def place (minSize size : Int) (q : Queue) : Queue × Nat × Int :=
  let size := CInt.wrap (size + 7) / 8 * 8
  match q.data.getLast?.bind fun i =>
      q.blocks[i]?.map (i, ·) with
  | some (i, b) =>
    if !b.full ∧ size ≤ b.size - b.last then
      (q, i, size)
    else
      grow q (max size minSize)
  | none => grow q (max size minSize)

/- `_msg_alloc` to `ref`, in `eina_thread_queue_send` -/
def msgAlloc (minSize : Int) (q : Queue) (size : Int) : Option Queue :=
  if q.lockWrite.isSome then
    none
  else do
    let (q, i, size) := place minSize size q
    let b ← q.blocks[i]?
    let b := b.add size q.sends.length
    some
      { q with
        blocks := q.blocks.set i b
        lockWrite := some (.sender q.sends.length)
        sends := q.sends ++ [⟨i, .allocating b.ref⟩] }

/-
  A sender goes on to a stage, with its block as `next` says,
  and with `lock_write` and the semaphore as they then are.
-/
def advance (q : Queue) (msg : Nat) (lock : Option Holder)
    (sem : Nat) (next : Stage → Block → Option (Block × Stage)) : Option Queue := do
  let s ← q.sends[msg]?
  let b ← q.blocks[s.blk]?
  let (b, stage) ← next s.stage b
  some
    { q with
      blocks := q.blocks.set s.blk b
      lockWrite := lock
      sem := sem
      sends := q.sends.set msg ⟨s.blk, stage⟩ }

/- The end of `eina_thread_queue_send` -/
def sendReturns (q : Queue) (msg : Nat) : Option Queue :=
  advance q msg none q.sem fun
    | .allocating ref, b =>
      if ref = 1 then
        if b.locked then none
        else some ({ b with locked := true }, .writing)
      else
        some (b, .writing)
    | _, _ => none

/- `_msg_alloc_done` to `ref` -/
def sendDone (q : Queue) (msg : Nat) : Option Queue :=
  advance q msg q.lockWrite q.sem fun
    | .writing, b =>
      some ({ b with ref := b.ref - 1 }, .completing (b.ref - 1))
    | _, _ => none

/- The end of `_msg_alloc_done` -/
def allocDone (q : Queue) (msg : Nat) : Option Queue :=
  advance q msg q.lockWrite q.sem fun
    | .completing ref, b =>
      some ({ b with locked := b.locked && ref != 0 }, .waking)
    | _, _ => none

/- `_eina_thread_queue_wake` -/
def wake (q : Queue) (msg : Nat) : Option Queue :=
  advance q msg q.lockWrite (q.sem + 1) fun
    | .waking, b => some (b, .done)
    | _, _ => none

---
-- The Reader
---

/- `eina_thread_queue_wait` and `_poll`, to the fetch -/
def begin (q : Queue) (poll : Bool) : Option Queue :=
  match q.reader with
  | .idle =>
    if poll then
      some { q with reader := .fetching true }
    else if 0 < q.sem then
      some { q with sem := q.sem - 1, reader := .fetching false }
    else
      none
  | _ => none

/- `_msg_fetch` with a `thq->read` -/
def msgTake (q : Queue) (poll : Bool) (i : Nat) : Option Queue := do
  let b ← q.blocks[i]?
  let msg := b.data.find? fun m => m.offset = b.first
  let first := b.first + (msg.map Msg.size).getD 0
  let q :=
    { q with
      blocks := q.blocks.set i
        { b with first := first, ref := b.ref + 1 }
      read := if b.last ≤ first then none else some i }
  let got := ⟨i, msg.map Msg.number⟩
  if poll then
    some { q with reader := .fetched got }
  else
    some { q with reader := .idle, returned := q.returned ++ [got] }

/- A move of the reader from where it is -/
def readerStep (q : Queue) : Option Queue :=
  match q.reader with
  | .idle => none
  | .fetching poll =>
    match q.read with
    | some i => msgTake q poll i
    | none =>
      if q.lockWrite.isSome then
        none
      else
        match q.data with
        | [] => some { q with reader := .idle }
        | i :: _ => do
          let b ← q.blocks[i]?
          some
            { q with
              lockWrite := some .reader
              reader := .detaching poll i b.ref }
  | .detaching poll i ref => do
    let b ← q.blocks[i]?
    if 0 < ref ∧ b.locked then
      none
    else
      some
        { q with
          read := some i
          data := q.data.tail
          lockWrite := none
          reader := .fetching poll }
  | .fetched got =>
    if 0 < q.sem then
      some
        { q with
          sem := q.sem - 1
          reader := .idle
          returned := q.returned ++ [got] }
    else
      none

/- `_msg_fetch_done`, in `eina_thread_queue_wait_done` -/
def waitDone (q : Queue) (got : Got) : Option Queue := do
  let b ← q.blocks[got.blk]?
  if got ∈ q.returned then
    some
      { q with
        blocks := q.blocks.set got.blk { b with ref := b.ref - 1 } }
  else
    none

---
-- Moves
---

inductive Move where
  | send (size : Int)
  | sendReturns (msg : Nat)
  | sendDone (msg : Nat)
  | allocDone (msg : Nat)
  | wake (msg : Nat)
  | wait
  | poll
  | reader
  | waitDone (got : Got)

def step (minSize : Int) (q : Queue) : Move → Option Queue
  | .send size => msgAlloc minSize q size
  | .sendReturns msg => sendReturns q msg
  | .sendDone msg => sendDone q msg
  | .allocDone msg => allocDone q msg
  | .wake msg => wake q msg
  | .wait => begin q false
  | .poll => begin q true
  | .reader => readerStep q
  | .waitDone got => waitDone q got

---
-- The Invariant
---

/- The sender of a message has called the function. -/
@[grind] def Called (q : Queue) (msg : Nat) : Prop :=
  ∃ s, q.sends[msg]? = some s ∧ s.stage.called = true

/- A block that nothing was read from -/
@[grind] def Unread (q : Queue) (i : Nat) : Prop :=
  ∃ b, q.blocks[i]? = some b ∧ b.first = 0

@[grind] def Got.Good (q : Queue) (got : Got) : Prop :=
  got.msg = some got.blk ∧ Called q got.blk

/-
  A block has one message, the one of its number; the block is
  locked and referenced as long as the message is written.
-/
structure Inv (q : Queue) : Prop where
  length : q.sends.length = q.blocks.length
  single : ∀ (i : Nat) (b : Block), q.blocks[i]? = some b →
    b.full = true ∧ b.data = [⟨0, b.last, i⟩]
  blk : ∀ (m : Nat) (s : Send), q.sends[m]? = some s → s.blk = m
  allocating : ∀ (m : Nat) (s : Send) (b : Block) (ref : Int),
    q.sends[m]? = some s → q.blocks[m]? = some b →
      s.stage = .allocating ref →
        ref = 1 ∧ 1 ≤ b.ref ∧ q.lockWrite = some (.sender m)
  writing : ∀ (m : Nat) (s : Send) (b : Block),
    q.sends[m]? = some s → q.blocks[m]? = some b →
      s.stage = .writing → 1 ≤ b.ref ∧ b.locked = true
  nodup : q.data.Nodup
  data : ∀ i ∈ q.data, Unread q i
  read : ∀ i, q.read = some i →
    i ∉ q.data ∧ Unread q i ∧ Called q i
  detaching : ∀ poll i ref, q.reader = .detaching poll i ref →
    q.data.head? = some i ∧ q.lockWrite = some .reader ∧
      (ref ≤ 0 → Called q i)
  fetched : ∀ got, q.reader = .fetched got → got.Good q
  returned : ∀ got ∈ q.returned, got.Good q

theorem Inv.new : Inv .new := by
  constructor <;> simp [Queue.new]

variable {q : Queue}

/- A message has a block to itself. -/
theorem place_eq (hInv : Inv q) (minSize size : Int) : ∃ n, place minSize size q = grow q n := by
  unfold place
  dsimp only
  split
  case h_2 => exact ⟨_, rfl⟩
  case h_1 i b hLast =>
    have hFull : b.full = true := by
      have hSingle := hInv.single
      grind
    rw [hFull]
    exact ⟨_, rfl⟩

variable {q' : Queue} {minSize : Int}

theorem msgAlloc_inv {size : Int} (hInv : Inv q)
    (hMove : msgAlloc minSize q size = some q') : Inv q' := by
  unfold msgAlloc at hMove
  rcases place_eq hInv minSize size with ⟨n, hPlace⟩
  rw [hPlace] at hMove
  simp only [grow, getElem?_concat_length] at hMove
  split at hMove
  case isTrue => exact nomatch hMove
  case isFalse hLock =>
    obtain rfl := Option.some.inj hMove
    cases hInv
    constructor <;> grind

/- A block is changed, and the stage of its sender. -/
theorem Inv.advance {s : Send} {b b' : Block} {stage : Stage}
    {lock : Option Holder} (sem : Nat) (hInv : Inv q)
    (hSend : q.sends[s.blk]? = some s) (hBlock : q.blocks[s.blk]? = some b)
    (hSame : b'.full = b.full ∧ b'.data = b.data ∧ b'.last = b.last ∧ b'.first = b.first)
    (hStage : stage.called = true ∨ stage = .writing ∧
      s.stage.called = false ∧ 1 ≤ b'.ref ∧ b'.locked = true)
    (hLock : lock = q.lockWrite ∨ q.lockWrite = some (.sender s.blk)) :
    Inv { q with
      blocks := q.blocks.set s.blk b'
      lockWrite := lock
      sem := sem
      sends := q.sends.set s.blk ⟨s.blk, stage⟩ } := by
  cases hInv
  constructor <;> grind

section

variable (hInv : Inv q)

include hInv

/-
  A sender goes on; it has called the function, or it has what
  it needs to write its message.
-/
theorem advance_inv {m : Nat} {lock : Option Holder} {sem : Nat}
    {next : Stage → Block → Option (Block × Stage)} (hMove : advance q m lock sem next = some q')
    (hNext : ∀ (s : Send) (b b' : Block) (stage : Stage),
      q.sends[m]? = some s → q.blocks[m]? = some b →
        next s.stage b = some (b', stage) →
          (b'.full = b.full ∧ b'.data = b.data ∧
            b'.last = b.last ∧ b'.first = b.first) ∧
          (stage.called = true ∨ stage = .writing ∧
            s.stage.called = false ∧ 1 ≤ b'.ref ∧ b'.locked = true) ∧
          (lock = q.lockWrite ∨ q.lockWrite = some (.sender m))) : Inv q' := by
  unfold advance at hMove
  simp only [Option.bind_eq_bind, Option.bind_eq_some_iff] at hMove
  rcases hMove with ⟨s, hSend, b, hBlock, ⟨b', stage⟩, hChange, hMove⟩
  obtain rfl := Option.some.inj hMove
  obtain rfl := hInv.blk m s hSend
  rcases hNext s b b' stage hSend hBlock hChange with ⟨hSame, hStage, hLock⟩
  exact hInv.advance sem hSend hBlock hSame hStage hLock

theorem sendReturns_inv {m : Nat} (hMove : sendReturns q m = some q') : Inv q' := by
  refine advance_inv hInv hMove ?_
  intro s b b' stage hSend hBlock hNext
  have hAllocating := hInv.allocating m s b
  grind

/- A block that is read from, or was -/
theorem msgTake_inv {poll : Bool} {i : Nat}
    (hRead : q.read = some i) (hMove : msgTake q poll i = some q') : Inv q' := by
  unfold msgTake at hMove
  rcases Option.bind_eq_some_iff.mp hMove with ⟨b, hBlock, hMove⟩
  rcases hInv.read i hRead with ⟨hData, ⟨b', hGet, hFirst⟩, hCalled⟩
  obtain rfl := Option.some.inj (hGet.symm.trans hBlock)
  have hMsg := (hInv.single i b' hGet).2
  simp only [hFirst, hMsg, find?, decide_true] at hMove
  cases hInv
  split at hMove
  all_goals
    obtain rfl := Option.some.inj hMove
    constructor <;> grind

/-
  Where no message is allocated, one whose block is not locked
  or not referenced is complete.
-/
theorem Inv.called {i : Nat} {b : Block} (hBlock : q.blocks[i]? = some b)
    (hLock : q.lockWrite ≠ some (.sender i))
    (hFree : b.ref ≤ 0 ∨ b.locked = false) : Called q i := by
  have hLess : i < q.sends.length := by
    have hLength := hInv.length
    grind
  refine ⟨q.sends[i], getElem?_eq_getElem hLess, ?_⟩
  have hAllocating := hInv.allocating i q.sends[i] b
  have hWriting := hInv.writing i q.sends[i] b
  cases hStage : q.sends[i].stage <;> grind

theorem readerStep_inv (hMove : readerStep q = some q') : Inv q' := by
  unfold readerStep at hMove
  split at hMove
  case h_1 => exact nomatch hMove
  case h_2 poll hReader =>
    split at hMove
    case h_1 i hRead => exact msgTake_inv hInv hRead hMove
    case h_2 =>
      split at hMove
      case isTrue => exact nomatch hMove
      case isFalse hLock =>
        split at hMove
        case h_1 =>
          obtain rfl := Option.some.inj hMove
          cases hInv
          constructor <;> grind
        case h_2 i rest hData =>
          rcases Option.bind_eq_some_iff.mp hMove with ⟨b, hBlock, hMove⟩
          obtain rfl := Option.some.inj hMove
          have hCalled := hInv.called hBlock (by grind)
          cases hInv
          constructor <;> grind
  case h_3 poll i ref hReader =>
    rcases Option.bind_eq_some_iff.mp hMove with ⟨b, hBlock, hMove⟩
    split at hMove
    case isTrue => exact nomatch hMove
    case isFalse hFree =>
      obtain rfl := Option.some.inj hMove
      rcases hInv.detaching poll i ref hReader with ⟨hHead, hLock, hRef⟩
      rcases head?_eq_some_iff.mp hHead with ⟨rest, hData⟩
      have hCalled := hInv.called hBlock (by grind)
      cases hInv
      constructor <;> grind
  case h_4 got hReader =>
    split at hMove
    case isFalse => exact nomatch hMove
    case isTrue =>
      obtain rfl := Option.some.inj hMove
      cases hInv
      constructor <;> grind

theorem begin_inv {poll : Bool} (hMove : begin q poll = some q') : Inv q' := by
  cases hInv
  unfold begin at hMove
  constructor <;> grind

theorem waitDone_inv {got : Got} (hMove : waitDone q got = some q') : Inv q' := by
  unfold waitDone at hMove
  rcases Option.bind_eq_some_iff.mp hMove with ⟨b, hBlock, hMove⟩
  split at hMove
  case isFalse => exact nomatch hMove
  case isTrue hGot =>
    obtain rfl := Option.some.inj hMove
    rcases (hInv.returned got hGot).2 with ⟨s, hSend, hCalled⟩
    have hBlk := hInv.blk got.blk s hSend
    rw [← hBlk] at hSend hBlock ⊢
    have hSame : q.sends.set s.blk s = q.sends := ext_getElem? fun i => by grind
    rw [← hSame]
    exact hInv.advance q.sem hSend hBlock ⟨rfl, rfl, rfl, rfl⟩ (.inl hCalled) (.inl rfl)

theorem step_inv {move : Move} (hMove : step minSize q move = some q') : Inv q' := by
  cases move with
  | send => exact msgAlloc_inv hInv hMove
  | sendReturns => exact sendReturns_inv hInv hMove
  | sendDone | allocDone | wake =>
    simp only [step, sendDone, allocDone, wake] at hMove
    refine advance_inv hInv hMove ?_
    intro s b b' stage hSend hBlock hNext
    grind
  | wait => exact begin_inv hInv hMove
  | poll => exact begin_inv hInv hMove
  | reader => exact readerStep_inv hInv hMove
  | waitDone => exact waitDone_inv hInv hMove

end

/-
  In every interleaving, a message that is returned is one
  whose sender has called `eina_thread_queue_send_done`.
-/
theorem returned_done {moves : List Move}
    (hRun : Runs.run (step minSize) .new moves = some q) :
    ∀ got ∈ q.returned, ∃ msg, got.msg = some msg ∧ Called q msg := by
  have hInv : Inv q :=
    Runs.inv_of_run Inv (fun _ _ _ hInv _ => step_inv hInv) .new
      (Runs.guarded_of_forall fun _ _ => trivial) hRun
  exact fun got hMem =>
    have hGood := hInv.returned got hMem
    ⟨got.blk, hGood⟩

/- The reader waits for the first of two messages. -/
theorem returned_done_sample :
    let q := (Runs.run (step 4028) .new
      [.send 8, .sendReturns 0, .send 16, .sendReturns 1,
        .sendDone 1, .allocDone 1, .wake 1, .wait, .reader,
        .sendDone 0, .allocDone 0, .reader, .reader]).get rfl
    q.returned = [⟨0, some 0⟩] ∧
      ∀ got ∈ q.returned, ∃ msg,
        got.msg = some msg ∧ Called q msg :=
  ⟨rfl, returned_done (Option.some_get _).symm⟩

end Efl.ThreadQueue
