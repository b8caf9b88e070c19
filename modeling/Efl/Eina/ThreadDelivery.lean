import Efl.Eina.ThreadQueue
import Mathlib.Data.List.Range

/-
  What the thread queue delivers.

  The messages come out in the order they were sent, each once,
  and when the senders are done the reader gets all of them.

  Main declarations:
    * `Delivers`, `step_delivers`
    * `returned_in_order`
    * `all_delivered`
-/

namespace Efl.ThreadQueue

open List

---
-- Delivery
---

/- The message of a fetch that `poll` has not returned -/
@[grind] def Reading.taken : Reading → List Nat
  | .fetched got => [got.blk]
  | _ => []

/- `eina_thread_queue_wait` has counted the semaphore down. -/
@[grind] def Reading.waited : Reading → Nat
  | .fetching false | .detaching false _ _ => 1
  | _ => 0

/- What a sender has left in the counter and the lock of its block -/
@[grind] def Settles (b : Block) (stage : Stage) : Prop :=
  (stage.called = false → b.ref = 1) ∧
    (∀ ref, stage = .completing ref → ref = 0) ∧
    (stage = .waking ∨ stage = .done → b.locked = false)

/- How far the reader is from having returned all messages -/
def left (q : Queue) : Nat :=
  5 * (q.sends.length - q.returned.length) +
    match q.reader with
    | .idle => 4
    | .fetching _ => if q.read = none then 3 else 1
    | .detaching .. => 2
    | .fetched _ => 0

/- The senders that have woken the reader -/
def woken (q : Queue) : Nat :=
  q.sends.countP fun s => s.stage = .done

/-
  The blocks in the order of their messages are those that were
  fetched, the one that is read and those in the chain.
-/
structure Delivers (q : Queue) : Prop where
  inv : Inv q
  order : q.returned.map Got.blk ++ q.reader.taken ++
    q.read.toList ++ q.data = range q.blocks.length
  count : woken q = q.sem + q.returned.length + q.reader.waited
  settled : ∀ (m : Nat) (s : Send) (b : Block),
    q.sends[m]? = some s → q.blocks[m]? = some b → Settles b s.stage
  sender : ∀ m, q.lockWrite = some (.sender m) →
    ∃ (s : Send) (ref : Int),
      q.sends[m]? = some s ∧ s.stage = .allocating ref
  reader : q.lockWrite = some .reader →
    ∃ poll i ref, q.reader = .detaching poll i ref
  detaching : ∀ poll i ref, q.reader = .detaching poll i ref →
    q.read = none

theorem Delivers.new : Delivers .new := by
  constructor
  case inv => exact Inv.new
  all_goals simp [Queue.new, woken, Reading.taken, Reading.waited]

variable {q q' : Queue} {minSize : Int}

section

variable (hDelivers : Delivers q)

include hDelivers

/- A wait finds a message. -/
theorem Delivers.found
    (hReader : q.reader = .fetching false) (hRead : q.read = none) : q.data ≠ [] := by
  intro hData
  have hOrder := congrArg List.length hDelivers.order
  have hCount := hDelivers.count
  have hWoken : woken q ≤ q.sends.length := countP_le_length
  have hLength := hDelivers.inv.length
  simp [hReader, hRead, hData, Reading.taken, Reading.waited] at hOrder hCount
  omega

theorem msgAlloc_delivers {size : Int}
    (hMove : msgAlloc minSize q size = some q') : Delivers q' := by
  have hInv := msgAlloc_inv hDelivers.inv hMove
  unfold msgAlloc at hMove
  rcases place_eq hDelivers.inv minSize size with ⟨n, hPlace⟩
  rw [hPlace] at hMove
  simp only [grow, getElem?_concat_length] at hMove
  split at hMove
  case isTrue => cases hMove
  case isFalse hLock =>
    obtain rfl := Option.some.inj hMove
    have hLength := hDelivers.inv.length
    rcases hDelivers with ⟨-, hOrder, hCount, hSettled, hSender, hReader, hDetaching⟩
    constructor
    case detaching => exact hDetaching
    case inv => exact hInv
    case order => simp [← append_assoc, hOrder, range_succ]
    case count => simpa [woken] using hCount
    case settled => grind
    case sender =>
      intro m hLock'
      obtain rfl : q.sends.length = m := by simpa using hLock'
      exact ⟨_, _, getElem?_concat_length, rfl⟩
    case reader => exact fun hLock' => by simp at hLock'

/- A sender goes on. -/
theorem advance_delivers {m sem : Nat} {lock : Option Holder}
    {next : Stage → Block → Option (Block × Stage)} (hInv : Inv q')
    (hMove : advance q m lock sem next = some q')
    (hNext : ∀ (s : Send) (b b' : Block) (stage : Stage),
      q.sends[m]? = some s → q.blocks[m]? = some b →
        Settles b s.stage → next s.stage b = some (b', stage) →
          Settles b' stage ∧ s.stage ≠ .done ∧
          sem = q.sem + (if stage = .done then 1 else 0) ∧
          (lock = none ∨ lock = q.lockWrite ∧
            ∀ ref, s.stage ≠ .allocating ref)) : Delivers q' := by
  unfold advance at hMove
  simp only [Option.bind_eq_bind, Option.bind_eq_some_iff] at hMove
  rcases hMove with ⟨s, hSend, b, hBlock, ⟨b', stage⟩, hChange, hMove⟩
  obtain rfl := Option.some.inj hMove
  rcases hDelivers with ⟨hOld, hOrder, hCount, hSettled, hSender, hReader, hDetaching⟩
  obtain rfl := hOld.blk m s hSend
  rcases hNext s b b' stage hSend hBlock (hSettled _ s b hSend hBlock)
    hChange with ⟨hSettles, hNot, hSem, hLock⟩
  rcases List.getElem?_eq_some_iff.mp hSend with ⟨hLess, hGet⟩
  constructor
  case inv => exact hInv
  case order => simpa using hOrder
  case count =>
    have hSet := countP_set (p := fun s => decide (s.stage = .done))
      (a := (⟨s.blk, stage⟩ : Send)) hLess
    simp only [woken] at hCount ⊢
    simp only [hGet, hNot, decide_false] at hSet
    rw [hSet, hCount, hSem]
    by_cases hDone : stage = .done <;> simp [hDone]
    omega
  all_goals grind

/- The message is the first of those that were not fetched. -/
theorem msgTake_delivers {poll : Bool} {i : Nat} (hRead : q.read = some i)
    (hReader : q.reader = .fetching poll)
    (hMove : msgTake q poll i = some q') :
    Delivers q' ∧ q'.sends = q.sends ∧ (q.returned.length < q.sends.length → left q' < left q) := by
  have hInv := msgTake_inv hDelivers.inv hRead hMove
  unfold msgTake at hMove
  rcases Option.bind_eq_some_iff.mp hMove with ⟨b, hBlock, hMove⟩
  rcases hDelivers with ⟨hOld, hOrder, hCount, hSettled, hSender, hLock, -⟩
  rcases hOld.read i hRead with ⟨hData, ⟨b', hGet, hFirst⟩, hCalled⟩
  obtain rfl := Option.some.inj (hGet.symm.trans hBlock)
  have hMsg := (hOld.single i b' hGet).2
  simp only [hFirst, hMsg, find?, decide_true, Option.map_some,
    Option.getD_some, Int.zero_add, Int.le_refl, if_true] at hMove
  rw [hReader] at hCount hOrder
  rw [hRead] at hOrder
  rcases poll with - | -
  all_goals
    obtain rfl := Option.some.inj hMove
    refine ⟨⟨hInv, ?_, ?_, ?_, ?_, ?_, ?_⟩, rfl, ?_⟩
  all_goals simp_all [Reading.taken, Reading.waited, woken, left]
  all_goals grind

/- A move that the senders do not see -/
theorem Delivers.keep (hInv : Inv q') (hSends : q'.sends = q.sends)
    (hLength : q'.blocks.length = q.blocks.length)
    (hOrder : q'.returned.map Got.blk ++ q'.reader.taken ++
        q'.read.toList ++ q'.data =
      q.returned.map Got.blk ++ q.reader.taken ++ q.read.toList ++ q.data)
    (hCount : q'.sem + q'.returned.length + q'.reader.waited =
      q.sem + q.returned.length + q.reader.waited)
    (hSettled : ∀ (m : Nat) (s : Send) (b : Block), q.sends[m]? = some s →
      q'.blocks[m]? = some b → Settles b s.stage)
    (hSender : ∀ m, q'.lockWrite = some (.sender m) →
      q.lockWrite = some (.sender m))
    (hReader : q'.lockWrite = some .reader →
      ∃ poll i ref, q'.reader = .detaching poll i ref)
    (hDetaching : ∀ poll i ref, q'.reader = .detaching poll i ref →
      q'.read = none) : Delivers q' where
  inv := hInv
  order := by rw [hOrder, hLength, hDelivers.order]
  count := by rw [hCount, ← hDelivers.count, woken, woken, hSends]
  settled := hSends ▸ hSettled
  sender m hLock := hSends ▸ hDelivers.sender m (hSender m hLock)
  reader := hReader
  detaching := hDetaching

theorem readerStep_delivers
    (hMove : readerStep q = some q') : Delivers q' := by
  have hInv := readerStep_inv hDelivers.inv hMove
  have hFound := hDelivers.found
  have hHolds := hDelivers.reader
  unfold readerStep at hMove
  split at hMove
  case h_1 => exact nomatch hMove
  case h_2 poll hReader =>
    split at hMove
    case h_1 i hRead => exact (msgTake_delivers hDelivers hRead hReader hMove).1
    case h_2 hRead =>
      split at hMove
      case isTrue => exact nomatch hMove
      case isFalse hLock =>
        split at hMove
        case h_1 hData =>
          -- Only `poll` can find nothing.
          have hPoll : poll = true := by grind
          obtain rfl := Option.some.inj hMove
          refine hDelivers.keep hInv rfl rfl ?_ ?_ hDelivers.settled (fun _ => id) ?_ nofun
          all_goals simp_all [Reading.taken, Reading.waited]
        case h_2 i rest hData =>
          rcases Option.bind_eq_some_iff.mp hMove with ⟨b, hBlock, hMove⟩
          obtain rfl := Option.some.inj hMove
          refine hDelivers.keep hInv rfl rfl ?_ ?_ hDelivers.settled
            nofun (fun _ => ⟨_, _, _, rfl⟩) (fun _ _ _ _ => hRead)
          · simp [hReader, Reading.taken]
          · cases poll <;> simp [hReader, Reading.waited]
  case h_3 poll i ref hReader =>
    rcases Option.bind_eq_some_iff.mp hMove with ⟨b, hBlock, hMove⟩
    split at hMove
    case isTrue => exact nomatch hMove
    case isFalse hFree =>
      obtain rfl := Option.some.inj hMove
      have hNone := hDelivers.detaching poll i ref hReader
      rcases hDelivers.inv.detaching poll i ref hReader with ⟨hHead, hLock, -⟩
      rcases head?_eq_some_iff.mp hHead with ⟨rest, hData⟩
      refine hDelivers.keep hInv rfl rfl ?_ ?_ hDelivers.settled nofun nofun nofun
      · simp [hReader, hNone, hData, Reading.taken]
      · cases poll <;> simp [hReader, Reading.waited]
  case h_4 got hReader =>
    split at hMove
    case isFalse => exact nomatch hMove
    case isTrue hSem =>
      obtain rfl := Option.some.inj hMove
      refine hDelivers.keep hInv rfl rfl ?_ ?_ hDelivers.settled
        (fun _ => id) (fun hLock => ?_) nofun
      · simp [hReader, Reading.taken]
      · simp [hReader, Reading.waited]
        omega
      · simpa [hReader] using hHolds hLock

theorem begin_delivers {poll : Bool}
    (hMove : begin q poll = some q') : Delivers q' := by
  have hInv := begin_inv hDelivers.inv hMove
  have hHolds := hDelivers.reader
  unfold begin at hMove
  split at hMove
  case h_2 => exact nomatch hMove
  case h_1 hReader =>
    have hLock : q.lockWrite ≠ some .reader := by grind
    split at hMove
    case isTrue hPoll =>
      obtain rfl := Option.some.inj hMove
      refine hDelivers.keep hInv rfl rfl ?_ ?_ hDelivers.settled
        (fun _ => id) (absurd · hLock) nofun
      · simp [hReader, Reading.taken]
      · simp [hReader, Reading.waited]
    case isFalse =>
      split at hMove
      case isFalse => exact nomatch hMove
      case isTrue hSem =>
        obtain rfl := Option.some.inj hMove
        refine hDelivers.keep hInv rfl rfl ?_ ?_ hDelivers.settled
          (fun _ => id) (absurd · hLock) nofun
        · simp [hReader, Reading.taken]
        · simp [hReader, Reading.waited]
          omega

theorem waitDone_delivers {got : Got}
    (hMove : waitDone q got = some q') : Delivers q' := by
  have hInv := waitDone_inv hDelivers.inv hMove
  unfold waitDone at hMove
  rcases Option.bind_eq_some_iff.mp hMove with ⟨b, hBlock, hMove⟩
  split at hMove
  case isFalse => exact nomatch hMove
  case isTrue hGot =>
    obtain rfl := Option.some.inj hMove
    rcases (hDelivers.inv.returned got hGot).2 with ⟨s, hSend, hCalled⟩
    have hSettled := hDelivers.settled
    refine hDelivers.keep hInv rfl (by simp) rfl rfl ?_ (fun _ => id)
      hDelivers.reader hDelivers.detaching
    intro m s' b' hSend' hBlock'
    dsimp only at hBlock'
    by_cases hSame : m = got.blk
    · subst hSame
      have hSettles := hSettled got.blk s' b hSend' hBlock
      obtain rfl := Option.some.inj (hSend.symm.trans hSend')
      rcases List.getElem?_eq_some_iff.mp hBlock with ⟨hLess, -⟩
      rw [getElem?_set_self hLess] at hBlock'
      obtain rfl := Option.some.inj hBlock'
      exact ⟨fun hNot => absurd hCalled (by simp [hNot]), hSettles.2⟩
    · rw [getElem?_set_ne (Ne.symm hSame)] at hBlock'
      exact hSettled m s' b' hSend' hBlock'

theorem step_delivers {move : Move}
    (hMove : step minSize q move = some q') : Delivers q' := by
  have hInv := step_inv hDelivers.inv hMove
  cases move with
  | send => exact msgAlloc_delivers hDelivers hMove
  | sendReturns | sendDone | allocDone | wake =>
    simp only [step, sendReturns, sendDone, allocDone, wake] at hMove
    refine advance_delivers hDelivers hInv hMove ?_
    intro s b b' stage hSend hBlock hSettles hNext
    grind
  | wait => exact begin_delivers hDelivers hMove
  | poll => exact begin_delivers hDelivers hMove
  | reader => exact readerStep_delivers hDelivers hMove
  | waitDone => exact waitDone_delivers hDelivers hMove

---
-- Runs
---

omit hDelivers in
theorem run_delivers {moves : List Move}
    (hRun : Runs.run (step minSize) .new moves = some q) : Delivers q :=
  Runs.inv_of_run Delivers (fun _ _ _ hDelivers _ =>
    step_delivers hDelivers) .new
    (Runs.guarded_of_forall fun _ _ => trivial) hRun

theorem Delivers.messages :
    q.returned.map Got.msg = (range q.returned.length).map some ∧
      q.returned.length ≤ q.sends.length := by
  have hOrder := hDelivers.order
  have hBlocks : q.returned.map Got.blk <+: range q.blocks.length := by
    rw [append_assoc, append_assoc] at hOrder
    exact ⟨_, hOrder⟩
  have hLess := hBlocks.length_le
  rw [length_map, length_range] at hLess
  refine ⟨?_, hDelivers.inv.length ▸ hLess⟩
  have hRange : q.returned.map Got.blk = range q.returned.length := by
    rw [prefix_iff_eq_take.mp hBlocks, length_map, take_range, Nat.min_eq_left hLess]
  rw [← hRange, map_map]
  exact map_congr_left fun got hMem =>
    (hDelivers.inv.returned got hMem).1

end

/-
  In every interleaving, the messages that were returned are the
  first ones that were sent, in this order and each once, and a
  wait that has passed the semaphore finds one.
-/
theorem returned_in_order {moves : List Move}
    (hRun : Runs.run (step minSize) .new moves = some q) :
    q.returned.map Got.msg = (range q.returned.length).map some ∧
      q.returned.length ≤ q.sends.length ∧
      (q.reader = .fetching false → q.read ≠ none ∨ q.data ≠ []) := by
  have hDelivers := run_delivers hRun
  refine ⟨hDelivers.messages.1, hDelivers.messages.2, fun hReader => ?_⟩
  by_cases hRead : q.read = none
  · exact Or.inr (hDelivers.found hReader hRead)
  · exact Or.inl hRead

/- The second message is written first and read second. -/
theorem returned_in_order_sample :
    let q := (Runs.run (step 4028) .new
      [.send 8, .sendReturns 0, .send 16, .sendReturns 1, .sendDone 1,
        .allocDone 1, .wake 1, .wait, .reader, .sendDone 0, .allocDone 0,
        .reader, .reader, .wake 0, .poll, .reader, .reader, .reader, .reader]).get rfl
    q.returned = [⟨0, some 0⟩, ⟨1, some 1⟩] ∧
      q.returned.map Got.msg = (range q.returned.length).map some :=
  ⟨rfl, (returned_in_order (Option.some_get _).symm).1⟩

/- Where no sender is busy, the reader can go on. -/
theorem Delivers.progress (minSize : Int) (hDelivers : Delivers q)
    (hDone : ∀ s ∈ q.sends, s.stage = .done)
    (hMore : q.returned.length < q.sends.length) :
    ∃ move q', (move = .wait ∨ move = .reader) ∧
      step minSize q move = some q' ∧ q'.sends = q.sends ∧
      left q' < left q := by
  have hAll : woken q = q.sends.length :=
    countP_eq_length.mpr fun s hMem => decide_eq_true (hDone s hMem)
  have hCount := hDelivers.count
  have hOrder := congrArg List.length hDelivers.order
  have hLength := hDelivers.inv.length
  simp only [length_append, length_map, length_range] at hOrder
  cases hReader : q.reader with
  | idle =>
    have hSem : 0 < q.sem := by
      simp only [hReader, Reading.waited] at hCount
      omega
    refine ⟨.wait, ?_⟩
    simp [step, begin, hReader, hSem, left]
    grind
  | fetching poll =>
    cases hRead : q.read with
    | some i =>
      rcases hDelivers.inv.read i hRead with ⟨-, ⟨b, hBlock, -⟩, -⟩
      obtain ⟨q', hMove⟩ : ∃ q', msgTake q poll i = some q' := by
        unfold msgTake
        rw [hBlock]
        cases poll <;> exact ⟨_, rfl⟩
      rcases msgTake_delivers hDelivers hRead hReader hMove with ⟨-, hSends, hLeft⟩
      refine ⟨.reader, q', Or.inr rfl, ?_, hSends, hLeft hMore⟩
      simp only [step, readerStep, hReader, hRead, hMove]
    | none =>
      have hFree : q.lockWrite = none := by
        rcases hLock : q.lockWrite with - | m | -
        · rfl
        · rcases hDelivers.sender m hLock with ⟨s, ref, hSend, hStage⟩
          rw [hDone s (mem_of_getElem? hSend)] at hStage
          cases hStage
        · rcases hDelivers.reader hLock with ⟨_, _, _, hOther⟩
          cases hReader.symm.trans hOther
      rw [hReader, hRead] at hOrder
      have hData : q.data ≠ [] := by
        intro hNil
        simp [hNil, Reading.taken] at hOrder
        omega
      rcases exists_cons_of_ne_nil hData with ⟨i, rest, hData⟩
      rcases hDelivers.inv.data i (hData ▸ mem_cons_self) with ⟨b, hBlock, -⟩
      refine ⟨.reader, ?_⟩
      simp [step, readerStep, hReader, hRead, hFree, hData, hBlock, left]
  | detaching poll i ref =>
    have hHead := (hDelivers.inv.detaching poll i ref hReader).1
    rcases hDelivers.inv.data i (mem_of_head? hHead) with ⟨b, hBlock, -⟩
    have hLess := (List.getElem?_eq_some_iff.mp hBlock).1
    rw [← hLength] at hLess
    have hFree : b.locked = false :=
      (hDelivers.settled i _ b (getElem?_eq_getElem hLess) hBlock).2.2
        (Or.inr (hDone _ (getElem_mem hLess)))
    refine ⟨.reader, ?_⟩
    simp [step, readerStep, hReader, hBlock, hFree, left]
  | fetched got =>
    have hSem : 0 < q.sem := by
      simp only [hReader, Reading.waited] at hCount
      omega
    refine ⟨.reader, ?_⟩
    simp [step, readerStep, hReader, hSem, left]
    omega

/-
  From every state in which the senders are done, the reader alone
  comes to have returned all messages.
-/
theorem all_delivered {moves : List Move} (hRun : Runs.run (step minSize) .new moves = some q)
    (hDone : ∀ s ∈ q.sends, s.stage = .done) :
    ∃ moves' q', (∀ move ∈ moves', move = .wait ∨ move = .reader) ∧
      Runs.run (step minSize) q moves' = some q' ∧
      q'.returned.map Got.msg = (range q.sends.length).map some := by
  have hDelivers := run_delivers hRun
  clear hRun
  induction hLeft : left q using Nat.strongRecOn generalizing q with
  | ind n ih =>
    by_cases hMore : q.returned.length < q.sends.length
    · rcases hDelivers.progress minSize hDone hMore with ⟨move, q₁, hReader, hMove, hSends, hLess⟩
      rw [← hSends] at hDone ⊢
      rcases ih _ (hLeft ▸ hLess) hDone (step_delivers hDelivers hMove) rfl
        with ⟨moves', q', hReaders, hRest, hAll⟩
      refine ⟨move :: moves', q', forall_mem_cons.mpr ⟨hReader, hReaders⟩, ?_, hAll⟩
      rw [Runs.run_cons, hMove]
      exact hRest
    · have hMessages := hDelivers.messages
      refine ⟨[], q, by simp, rfl, ?_⟩
      rw [hMessages.1, Nat.le_antisymm hMessages.2 (Nat.not_lt.mp hMore)]

/- Two messages that wait -/
theorem all_delivered_sample :
    let q := (Runs.run (step 4028) .new
      [.send 8, .sendReturns 0, .send 16, .sendReturns 1, .sendDone 1,
        .allocDone 1, .wake 1, .sendDone 0, .allocDone 0, .wake 0]).get rfl
    ∃ moves' q', (∀ move ∈ moves', move = .wait ∨ move = .reader) ∧
      Runs.run (step 4028) q moves' = some q' ∧
      q'.returned.map Got.msg = [some 0, some 1] :=
  all_delivered (Option.some_get _).symm (by decide)

end Efl.ThreadQueue
