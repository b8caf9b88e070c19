import Efl.Eina.Freeq.Runs

/-
  A free queue whose free functions call it again.

  A function that is called returns in a later step, and what
  it calls on the queue are steps in between; the frames are
  the calls that wait for one.

  Main declarations:
    * `Loop`, `Frame`, `Nest`
    * `enterLoop`, `finish`, `Nest.step`
    * `Nest.step_inv`
    * `nested_correct`
-/

---
-- Nested Calls
---

namespace Efl.Eina.Freeq

open Option List

/- The loops that call `_eina_freeq_process` -/
inductive Loop where
  | flush
  | clear
  | reduce (count : Nat)

/- What goes on when a free function returns -/
inductive Frame where
  | process (b : Nat) (loop : Loop)
  | direct

def Frame.processes : Frame → Bool
  | .process _ _ => true
  | .direct => false

/- A queue, the calls that are open, and what was added -/
structure Nest where
  fq : FreeQ
  frames : List Frame
  added : List Item

/- The condition of a loop -/
def Loop.goes (fq : FreeQ) : Loop → Bool
  | .flush => !fq.postponed && decide fq.Over
  | .clear => decide fq.Counts
  | .reduce count => decide fq.Counts && decide (0 < count)

/- The loop behind a turn -/
def Loop.next : Loop → Loop
  | .reduce count => .reduce (count - 1)
  | loop => loop

/-
  A loop up to the next call of a free function; without a
  block only `eina_freeq_reduce` ends.
-/
def enterLoop (st : Nest) (loop : Loop) : Option Nest :=
  if loop.goes st.fq then
    match st.fq.blocks, loop with
    | none, .reduce _ => some st
    | none, _ => none
    | some b, _ => do
      let fb ← st.fq.heap.read b
      let item ← fb.items fb.start
      some
        { st with
          fq := st.fq.freeDo item
          frames := .process b loop :: st.frames }
  else
    some st

/- `_eina_freeq_process` behind the call of the function -/
def finish (fq : FreeQ) (b : Nat) : Option FreeQ := do
  let fb ← fq.heap.read b
  let item ← fb.items fb.start
  let fb := { fb with start := fb.start + 1 }
  let fq := { fq with
    memTotal := (fq.memTotal + sizeMax - item.size) % sizeMax
    heap := fq.heap.set b fb
    count := CInt.wrap (fq.count - 1) }
  if fb.start = fb.stop then do
    let heap ← fq.heap.free b
    some
      { fq with
        heap := heap
        blocks := fb.next
        blockLast :=
          if fb.next = none then none else fq.blockLast }
  else
    some fq

/- A free function returns. -/
def leave (st : Nest) : Option Nest :=
  match st.frames with
  | [] => none
  | .direct :: frames => some { st with frames := frames }
  | .process b loop :: frames => do
    let fq ← finish st.fq b
    enterLoop { st with fq := fq, frames := frames } loop.next

/- `eina_freeq_ptr_add` of a pointer -/
def nestAdd (st : Nest) (item : Item) (memory : Option Nat) : Option Nest :=
  let st := { st with added := st.added ++ [item] }
  let direct : Nest :=
    { st with
      fq := st.fq.freeDo item
      frames := .direct :: st.frames }
  if st.fq.bypass then
    some direct
  else do
    let (fq, room) ←
      if ← st.fq.needsBlock then
        blockAppend st.fq memory
      else
        some (st.fq, true)
    if room then do
      let fq ← fq.write item
      enterLoop { st with fq := fq } .flush
    else if fq.postponed then
      some st
    else
      some direct

inductive NestOp where
  | ptrAdd (item : Item) (memory : Option Nat)
  | reduce (count : Int)
  | clear
  | ret

def Nest.step (st : Nest) : NestOp → Option Nest
  | .ptrAdd item memory => nestAdd st item memory
  | .reduce count => enterLoop st (.reduce count.toNat)
  | .clear => enterLoop st .clear
  | .ret => leave st

/- A queue of any kind -/
def Nest.start (totalMax : Int) (memMax : Nat) (bypass postponed : Bool) : Nest where
  fq :=
    { newDefault totalMax memMax with
      bypass := bypass
      postponed := postponed }
  frames := []
  added := []

---
-- Conditions
---

/- How many calls of `_eina_freeq_process` are open -/
def turns (frames : List Frame) : Nat :=
  frames.countP Frame.processes

def Nest.Active (st : Nest) : Prop :=
  st.frames.any Frame.processes

/- Calls that can be made -/
def Nest.Allowed (st : Nest) : NestOp → Prop
  | .ptrAdd item memory =>
    item.size < sizeMax ∧
      ∀ fb, memory = some fb → fb ∉ st.fq.heap.live
  | .reduce count => CInt.InRange count
  | .clear => True
  | .ret => st.frames ≠ []

/-
  A call from a function that `_eina_freeq_process` called does
  not come to it again; and an added pointer finds room in the
  counts, and a block for it if the queue is a postponed one.
-/
def Nest.Meets (st : Nest) : NestOp → Prop
  | .ptrAdd item memory =>
    st.fq.bypass ∨
      st.fq.count < CInt.intMax ∧
        st.fq.memTotal + item.size < sizeMax ∧
        (st.fq.needsBlock = some true → memory = none →
          st.fq.postponed = false) ∧
        (st.Active → st.fq.postponed ∨
          st.fq.needsBlock = some true ∧ memory = none ∨
          st.fq.count + 1 ≤ st.fq.countMax ∧
            st.fq.memTotal + item.size ≤ st.fq.memMax)
  | .reduce count => st.Active → count ≤ 0
  | .clear => ¬ st.Active
  | .ret => True

/-
  Each pointer that was added was given to its function once,
  or it is pending; the one that is being freed still counts.
-/
def Nest.Correct (st : Nest) : Prop :=
  ∃ pending, (st.fq.freed ++ pending).Perm st.added ∧
    st.fq.count = pending.length + turns st.frames

/-
  The items that the queue holds; the first of them was given
  to its function if the queue is being processed.
-/
structure Nest.Inv (st : Nest) : Prop where
  limit : st.fq.postponed ∨ 0 ≤ st.fq.countMax
  once : turns st.frames ≤ 1
  block : ∀ b loop, .process b loop ∈ st.frames →
    st.fq.blocks = some b
  items : ∃ items, Holds st.fq items ∧
    turns st.frames ≤ items.length ∧
    (st.fq.freed ++ items.drop (turns st.frames)).Perm st.added

---
-- Turns of the Loops
---

variable {st : Nest} {fq fq' : FreeQ} {item x : Item}
  {items : List Item} {memory : Option Nat} {b : Nat}

theorem turns_process (b : Nat) (loop : Loop) (frames : List Frame) :
    turns (.process b loop :: frames) = turns frames + 1 := countP_cons_of_pos rfl

theorem turns_direct (frames : List Frame) :
    turns (.direct :: frames) = turns frames := countP_cons_of_neg nofun

theorem turns_eq_zero {frames : List Frame} : turns frames = 0 ↔ ¬ frames.any Frame.processes := by
  unfold turns
  rw [countP_eq_zero]
  simp

theorem Nest.Inv.correct (hInv : st.Inv) : st.Correct := by
  rcases hInv.items with ⟨items, hHolds, hLength, hPerm⟩
  refine ⟨_, hPerm, ?_⟩
  rw [hHolds.count, length_drop]
  omega

/- The item that a loop gives to its function -/
theorem first_item (hHolds : Holds fq (x :: items)) :
    ∃ b fb, fq.blocks = some b ∧ fq.heap.read b = some fb ∧ fb.items fb.start = some x := by
  rcases process_layout hHolds.pending with ⟨fq', hProcess, -, hFreed, -⟩
  cases hBlocks : fq.blocks with
  | none => exact nomatch hHolds.pending.nil_iff.mp hBlocks
  | some b =>
    unfold process at hProcess
    rw [hBlocks] at hProcess
    rcases bind_eq_some_iff.mp hProcess with ⟨fb, hRead, hProcess⟩
    rcases bind_eq_some_iff.mp hProcess with ⟨item, hItem, hProcess⟩
    refine ⟨b, fb, rfl, hRead, ?_⟩
    have hSame : fq'.freed = fq.freed ++ [item] := by
      simp only [FreeQ.freeDo] at hProcess
      split at hProcess
      case isTrue =>
        rcases bind_eq_some_iff.mp hProcess with ⟨heap, -, hProcess⟩
        rw [← some.inj hProcess]
      case isFalse => rw [← some.inj hProcess]
    obtain ⟨rfl, -⟩ := cons.inj (append_cancel_left (hFreed.symm.trans hSame))
    exact hItem

/- What is left of a turn, when the function returned -/
theorem finish_spec (hHolds : Holds fq (x :: items))
    (hBlocks : fq.blocks = some b) :
    ∃ fq', finish fq b = some fq' ∧ Holds fq' items ∧ Same fq fq' ∧ fq'.freed = fq.freed := by
  rcases first_item hHolds with ⟨b', fb, hFirst, hRead, hItem⟩
  obtain rfl := some.inj (hBlocks.symm.trans hFirst)
  rcases process_spec hHolds with ⟨fq', hProcess, hNew, hSame, -⟩
  refine ⟨{ fq' with freed := fq.freed }, ?_, hNew.congr rfl rfl rfl rfl rfl,
    ⟨hSame.1, hSame.2, hSame.3, hSame.4⟩, rfl⟩
  unfold process at hProcess
  unfold finish
  rw [hBlocks] at hProcess
  simp only [bind_eq_bind, hRead, hItem, bind_some, FreeQ.freeDo] at hProcess ⊢
  split at hProcess
  case isTrue hEnd =>
    rcases bind_eq_some_iff.mp hProcess with ⟨heap, hFree, hProcess⟩
    rw [if_pos hEnd, hFree, ← some.inj hProcess]
    rfl
  case isFalse hMore => rw [if_neg hMore, ← some.inj hProcess]

/- A loop that is not entered from another one -/
theorem enterLoop_inv (loop : Loop) (hInv : st.Inv)
    (hGoes : st.Active → loop.goes st.fq = false) :
    ∃ st', enterLoop st loop = some st' ∧ st'.Inv := by
  unfold enterLoop
  split
  case isFalse => exact ⟨st, rfl, hInv⟩
  case isTrue hMore =>
    have hNone : turns st.frames = 0 := turns_eq_zero.mpr
      fun hActive => Bool.noConfusion (hMore.symm.trans (hGoes hActive))
    rcases hInv.items with ⟨items, hHolds, -, hPerm⟩
    rw [hNone, drop_zero] at hPerm
    cases items with
    | nil =>
      -- the counts are zero, so the loop does not go on
      have hCount := hHolds.count
      have hTotal := hHolds.memTotal
      have hLimit := hInv.limit
      cases loop
      all_goals
        simp [Loop.goes, FreeQ.Over, FreeQ.Counts] at *
        grind
    | cons x items =>
      rcases first_item hHolds with ⟨b, fb, hBlocks, hRead, hItem⟩
      have hOne : turns (.process b loop :: st.frames) = 1 := by
        rw [turns_process, hNone]
      simp [hBlocks, hRead, hItem]
      refine ⟨hInv.limit, hOne.le, ?_, x :: items, hHolds.congr rfl rfl rfl rfl rfl, ?_, ?_⟩
      · rintro b' loop' hMem
        rcases mem_cons.mp hMem with hEq | hMem
        · obtain ⟨rfl, -⟩ := Frame.process.inj hEq
          exact hBlocks
        · exact hInv.block b' loop' hMem
      · rw [hOne]
        exact Nat.le_add_left 1 _
      · simpa [hOne, FreeQ.freeDo] using hPerm

theorem leave_inv (hInv : st.Inv) (hFrames : st.frames ≠ []) :
    ∃ st', leave st = some st' ∧ st'.Inv := by
  rcases hInv with ⟨hLimit, hOnce, hBlock, items, hHolds, hLength, hPerm⟩
  unfold leave
  cases hCase : st.frames with
  | nil => exact absurd hCase hFrames
  | cons frame frames =>
    rw [hCase] at hOnce hBlock hLength hPerm
    cases frame with
    | direct =>
      rw [turns_direct] at *
      exact ⟨_, rfl, hLimit, hOnce, fun b loop hMem =>
        hBlock b loop (mem_cons_of_mem _ hMem),
        items, hHolds, hLength, hPerm⟩
    | process b loop =>
      rw [turns_process] at *
      have hNone : turns frames = 0 := by omega
      have hActive := turns_eq_zero.mp hNone
      cases items with
      | nil => exact absurd hLength (by simp)
      | cons x items =>
        rcases finish_spec hHolds (hBlock b loop mem_cons_self) with
          ⟨fq', hFinish, hNew, hSame, hFreed⟩
        dsimp only
        rw [hFinish]
        refine enterLoop_inv _ ⟨?_, hNone.le.trans (Nat.zero_le 1),
          ?_, items, hNew, hNone.le.trans (Nat.zero_le _), ?_⟩ fun hAny => absurd hAny hActive
        · rw [hSame.postponed, hSame.countMax]
          exact hLimit
        · intro b loop hMem
          exact absurd (any_eq_true.mpr ⟨_, hMem, rfl⟩) hActive
        · rw [hNone] at hPerm
          simpa [hNone, hFreed] using hPerm

---
-- Added Pointers
---

theorem write_blocks (hWrite : fq.write item = some fq') : fq'.blocks = fq.blocks := by
  unfold FreeQ.write at hWrite
  rcases bind_eq_some_iff.mp hWrite with ⟨last, -, hWrite⟩
  rcases bind_eq_some_iff.mp hWrite with ⟨fb, -, hWrite⟩
  split at hWrite
  case isTrue => rw [← some.inj hWrite]
  case isFalse => exact nomatch hWrite

theorem blockAppend_blocks {ok : Bool} (hBlocks : fq.blocks = some b)
    (hAppend : blockAppend fq memory = some (fq', ok)) : fq'.blocks = some b := by
  unfold blockAppend at hAppend
  cases memory with
  | none =>
    obtain ⟨rfl, -⟩ := Prod.mk.inj (some.inj hAppend)
    exact hBlocks
  | some fb =>
    rw [hBlocks] at hAppend
    rcases bind_eq_some_iff.mp hAppend with ⟨last, -, hAppend⟩
    rcases bind_eq_some_iff.mp hAppend with ⟨heap, -, hAppend⟩
    obtain ⟨rfl, -⟩ := Prod.mk.inj (some.inj hAppend)
    rfl

/- The item that is written, and the flush -/
theorem write_inv (item : Item) (hInv : st.Inv) (hRoom : Room fq items)
    (hLength : turns st.frames ≤ items.length)
    (hPerm : (st.fq.freed ++ items.drop (turns st.frames)).Perm st.added)
    (hSame : Same st.fq fq) (hFreed : fq.freed = st.fq.freed)
    (hBlocks : ∀ b, st.fq.blocks = some b → fq.blocks = some b)
    (hCountEq : fq.count = items.length) (hTotal : fq.memTotal = total items)
    (hCount : fq.count < CInt.intMax) (hSize : fq.memTotal + item.size < sizeMax)
    (hActive : st.Active → st.fq.postponed ∨
      fq.count + 1 ≤ st.fq.countMax ∧
        fq.memTotal + item.size ≤ st.fq.memMax) :
    ∃ st', ((fq.write item).bind fun fq =>
      enterLoop ⟨fq, st.frames, st.added ++ [item]⟩ .flush) = some st' ∧ st'.Inv := by
  rcases write_holds item hRoom hCountEq hTotal hCount hSize with
    ⟨fq', hWrite, hHolds, hSame', hFreed'⟩
  have hAll := hSame.trans hSame'
  rw [hWrite]
  refine enterLoop_inv _ ⟨?_, hInv.once, ?_, items ++ [item], hHolds, ?_, ?_⟩ ?_
  · rw [hAll.postponed, hAll.countMax]
    exact hInv.limit
  · intro b loop hMem
    rw [write_blocks hWrite]
    exact hBlocks b (hInv.block b loop hMem)
  · rw [length_append]
    exact Nat.le_add_right_of_le hLength
  · simp only [hFreed', hFreed]
    rw [drop_append_of_le_length hLength, ← append_assoc]
    exact hPerm.append_right [item]
  · intro hAct
    have hNewCount := hHolds.count
    have hNewTotal := hHolds.memTotal
    rw [length_append] at hNewCount
    rw [total_append] at hNewTotal
    simp only [Loop.goes, FreeQ.Over, hAll.postponed, hAll.countMax, hAll.memMax]
    rcases hActive hAct with hKind | hIn
    · rw [hKind]
      rfl
    · simp at *
      omega

/- The function is called at once. -/
theorem direct_inv (item : Item) (hInv : st.Inv) :
    Nest.Inv ⟨st.fq.freeDo item, .direct :: st.frames, st.added ++ [item]⟩ := by
  rcases hInv with ⟨hLimit, hOnce, hBlock, items, hHolds, hLength, hPerm⟩
  rw [← turns_direct] at hOnce hLength hPerm
  refine ⟨hLimit, hOnce, ?_, items, hHolds.congr rfl rfl rfl rfl rfl, hLength, ?_⟩
  · intro b loop hMem
    exact hBlock b loop (by simpa using hMem)
  · refine .trans ?_ (hPerm.append_right [item])
    simp only [FreeQ.freeDo]
    rw [append_assoc, append_assoc]
    exact perm_append_comm.append_left _

theorem nestAdd_inv (hInv : st.Inv) (hAllowed : st.Allowed (.ptrAdd item memory))
    (hMeets : st.Meets (.ptrAdd item memory)) :
    ∃ st', nestAdd st item memory = some st' ∧ st'.Inv := by
  rcases hInv.items with ⟨items, hHolds, hLength, hPerm⟩
  unfold nestAdd
  dsimp only
  split
  case isTrue => exact ⟨_, rfl, direct_inv item hInv⟩
  case isFalse hBypass =>
    rcases hMeets.resolve_left hBypass with ⟨hCount, hSize, hMemory, hActive⟩
    rcases room_of_needsBlock hHolds.pending with hNeeds | ⟨hNeeds, hRoom⟩
    · rw [hNeeds]
      cases memory with
      | none =>
        have hKind := hMemory hNeeds rfl
        simp [blockAppend, hKind]
        exact direct_inv item hInv
      | some fb =>
        rcases blockAppend_room hHolds.pending (hAllowed.2 fb rfl)
          with ⟨fq₁, hAppend, hRoom, hSame, hFreed, hCount₁, hMem₁⟩
        simp only [bind_eq_bind, bind_some, if_true, hAppend]
        refine write_inv item hInv hRoom hLength hPerm hSame hFreed
          (fun b hBlocks => blockAppend_blocks hBlocks hAppend)
          (hCount₁.trans hHolds.count) (hMem₁.trans hHolds.memTotal)
          (by rwa [hCount₁]) (by rwa [hMem₁]) ?_
        rw [hCount₁, hMem₁]
        intro hAct
        rcases hActive hAct with hKind | ⟨-, hNone⟩ | hIn
        · exact .inl hKind
        · cases hNone
        · exact .inr hIn
    · rw [hNeeds]
      simp only [bind_eq_bind, bind_some, if_true, Bool.false_eq_true, if_false]
      refine write_inv item hInv hRoom hLength hPerm
        ⟨rfl, rfl, rfl, rfl⟩ rfl (fun b hBlocks => hBlocks)
        hHolds.count hHolds.memTotal hCount hSize ?_
      intro hAct
      rcases hActive hAct with hKind | ⟨hSome, -⟩ | hIn
      · exact .inl hKind
      · cases hNeeds.symm.trans hSome
      · exact .inr hIn

---
-- Runs
---

theorem Nest.step_inv {op : NestOp} (hInv : st.Inv)
    (hOk : st.Allowed op ∧ st.Meets op) : ∃ st', st.step op = some st' ∧ st'.Inv := by
  cases op with
  | ptrAdd item memory => exact nestAdd_inv hInv hOk.1 hOk.2
  | reduce count =>
    refine enterLoop_inv _ hInv fun hActive => ?_
    have hCount := hOk.2 hActive
    simp [Loop.goes, Int.toNat_of_nonpos hCount]
  | clear =>
    exact enterLoop_inv _ hInv fun hActive => absurd hActive hOk.2
  | ret => exact leave_inv hInv hOk.1

/-
  Where no function that the queue calls has the queue call
  another one, each pointer is freed once, and no block is used
  that was released.
-/
theorem nested_correct {totalMax : Int} {memMax : Nat}
    {bypass postponed : Bool} {ops : List NestOp}
    (hLimit : postponed ∨ 0 ≤ totalMax) (hOps : Runs.Guarded Nest.step
      (fun st op => st.Allowed op ∧ st.Meets op)
      (.start totalMax memMax bypass postponed) ops) :
    ∃ st, Runs.run Nest.step
        (.start totalMax memMax bypass postponed) ops = some st ∧
      st.Correct := by
  have hInv : (Nest.start totalMax memMax bypass postponed).Inv :=
    ⟨hLimit, Nat.zero_le 1, nofun, [],
      ⟨⟨[], [], ⟨Fifo.queue_nil _, rfl, .nil⟩, by simp, rfl⟩,
        rfl, rfl, by decide, by decide⟩, Nat.le_refl 0, .refl _⟩
  rcases Runs.run_of_guarded Nest.Inv (fun _ _ => Nest.step_inv)
    hInv hOps with ⟨st, hRun, hInv⟩
  exact ⟨st, hRun, hInv.correct⟩

/- A function that adds a pointer, in `eina_freeq_clear` -/
theorem nested_correct_sample :
    ∃ st, Runs.run Nest.step (.start 2 100 false false)
        [.ptrAdd ⟨64, none, 8⟩ (some 4096), .clear,
          .ptrAdd ⟨80, some 7, 16⟩ none, .ret, .ret] = some st ∧
      st.Correct :=
  nested_correct (.inr (by decide)) (by
    refine ⟨⟨⟨by decide, fun fb _ => Finset.notMem_empty fb⟩,
      .inr ⟨by decide, by decide, nofun, nofun⟩⟩, fun st₁ hAdd => ?_⟩
    obtain rfl := some.inj hAdd
    refine ⟨⟨trivial, nofun⟩, fun st₂ hClear => ?_⟩
    obtain rfl := some.inj hClear
    refine ⟨⟨⟨by decide, nofun⟩, .inr ⟨by decide, by decide, nofun,
      fun _ => .inr (.inr ⟨by decide, by decide⟩)⟩⟩,
      fun st₃ hNested => ?_⟩
    obtain rfl := some.inj hNested
    refine ⟨⟨nofun, trivial⟩, fun st₄ hRet => ?_⟩
    obtain rfl := some.inj hRet
    exact ⟨⟨nofun, trivial⟩, fun _ _ => trivial⟩)

/- A function that clears the queue gets its pointer again. -/
theorem nested_clear_twice :
    ∃ st : Nest, Runs.Guarded Nest.step Nest.Allowed
        (.start 2 100 false false)
        [.ptrAdd ⟨64, none, 8⟩ (some 4096), .clear, .clear] ∧
      Runs.run Nest.step (.start 2 100 false false)
        [.ptrAdd ⟨64, none, 8⟩ (some 4096), .clear, .clear] =
          some st ∧ ¬ st.Correct := by
  refine ⟨_, ?_, rfl, ?_⟩
  · exact ⟨⟨by decide, fun fb _ => Finset.notMem_empty fb⟩,
      fun _ _ => ⟨trivial, fun _ _ => ⟨trivial, fun _ _ => trivial⟩⟩⟩
  · rintro ⟨pending, hPerm, -⟩
    exact absurd hPerm.length_eq (by
      rw [length_append]
      change 2 + pending.length ≠ 1
      omega)

end Efl.Eina.Freeq
