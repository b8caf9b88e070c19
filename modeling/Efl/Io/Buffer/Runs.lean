import Efl.Io.Buffer.Contents
import Efl.Lib.Runs

/-
  Runs of a buffer next to the file that it is for.

  Main declarations:
    * `State`, `step`
    * `Agrees`, `Fits`
    * `buffer_correct`
-/

---
-- Steps
---

namespace Efl.Io.Buffer

open Bytes

/-
  A buffer and a file under the same calls, with the bytes that
  were read or stolen from each
-/
structure State where
  pd : Data
  file : File
  out : List Byte
  expected : List Byte

def State.start : State where
  pd := .new
  file := .empty
  out := []
  expected := []

inductive Op where
  | write (slice : List Byte) (alloc : Alloc)
  | read (len : Nat)
  | seek (offset : Int) (whence : Whence)
  | positionReadSet (position : Nat)
  | positionWriteSet (position : Nat)
  | resize (size : Nat) (memory : Option (Nat → Byte))
  | preallocate (size : Nat) (alloc : Alloc)
  | limitSet (limit : Nat) (alloc : Alloc)
  | adoptReadonly (slice : List Byte)
  | adoptReadwrite (slice : List Byte)
  | binbufSteal (alloc : Alloc)

/-
  One call.  The file takes as many bytes as the buffer says
  that it took, and has no other size than the buffer when
  that ran out of space.
-/
def step (st : State) : Op → Option State
  | .write slice alloc => do
    let (pd, n, _) ← write alloc st.pd slice
    some
      { st with
        pd := pd
        file := st.file.overwrite (slice.take n) }
  | .read len => do
    let (pd, bytes, _) ← read st.pd len
    some
      { pd := pd
        file := st.file.advance len
        out := st.out ++ bytes
        expected := st.expected ++ st.file.next len }
  | .seek offset whence =>
    some
      { st with
        pd := (seek st.pd offset whence).1
        file := st.file.seek offset whence }
  | .positionReadSet position =>
    some
      { st with
        pd := (positionReadSet st.pd position).1
        file := st.file.readSet position }
  | .positionWriteSet position =>
    some
      { st with
        pd := (positionWriteSet st.pd position).1
        file := st.file.writeSet position }
  | .resize size memory => do
    let (pd, err) ← resize memory st.pd size
    some
      { st with
        pd := pd
        file := st.file.resized size pd.used err }
  | .preallocate size alloc =>
    some { st with pd := preallocate alloc st.pd size }
  | .limitSet limit alloc =>
    some
      { st with
        pd := limitSet alloc st.pd limit
        file := st.file.limitSet limit }
  | .adoptReadonly slice =>
    some
      { st with
        pd := adoptReadonly st.pd slice
        file := st.file.adoptReadonly slice }
  | .adoptReadwrite slice =>
    some
      { st with
        pd := adoptReadwrite st.pd slice
        file := st.file.adoptReadwrite slice }
  | .binbufSteal alloc => do
    let (pd, bytes) ← binbufSteal alloc st.pd
    match bytes with
    | none => some { st with pd := pd }
    | some bytes =>
      some
        { pd := pd
          file := st.file.truncate 0
          out := st.out ++ bytes
          expected := st.expected ++ st.file.contents }

variable {st : State}

variable {alloc : Alloc} {pd' : Data} {err : Option Error}

theorem step_write {slice : List Byte} {n : Nat}
    (hWrite : write alloc st.pd slice = some (pd', n, err)) :
    step st (.write slice alloc) =
      some
        { st with
          pd := pd'
          file := st.file.overwrite (slice.take n) } := by
  simp [step, hWrite]

theorem step_read {len : Nat} {bytes : List Byte}
    (hRead : read st.pd len = some (pd', bytes, err)) :
    step st (.read len) =
      some
        { pd := pd'
          file := st.file.advance len
          out := st.out ++ bytes
          expected := st.expected ++ st.file.next len } := by
  simp [step, hRead]

theorem step_resize {size : Nat} {memory : Option (Nat → Byte)}
    (hResize : resize memory st.pd size = some (pd', err)) :
    step st (.resize size memory) =
      some
        { st with
          pd := pd'
          file := st.file.resized size pd'.used err } := by
  simp [step, hResize]

theorem step_refused
    (hSteal : binbufSteal alloc st.pd = some (pd', none)) :
    step st (.binbufSteal alloc) = some { st with pd := pd' } := by
  simp [step, hSteal]

theorem step_stolen {bytes : List Byte}
    (hSteal : binbufSteal alloc st.pd = some (pd', some bytes)) :
    step st (.binbufSteal alloc) =
      some
        { pd := pd'
          file := st.file.truncate 0
          out := st.out ++ bytes
          expected := st.expected ++ st.file.contents } := by
  simp [step, hSteal]

/-
  The blocks are in memory, and the numbers are of their
  types.
-/
def Allowed (st : State) : Op → Prop
  | .write slice _ => InMemory st.pd slice.length
  | .read len => len < CSize.bound
  | .seek offset _ =>
    -CSize.blockMax - 1 ≤ offset ∧ offset ≤ CSize.blockMax
  | .positionReadSet position => position < CSize.bound
  | .positionWriteSet position => position < CSize.bound
  | .resize size _ => size < CSize.bound
  | .preallocate size _ => size < CSize.bound
  | .limitSet limit _ => limit < CSize.bound
  | .adoptReadonly slice => slice.length ≤ CSize.blockMax
  | .adoptReadwrite slice => slice.length ≤ CSize.blockMax
  | .binbufSteal _ => True

/-
  No block is reallocated below what is used: a size can be
  rounded up, and a limit below what is used, which an adopted
  block may be above, is not met by a call that asks for more
  room.
-/
def Fits (st : State) : Op → Prop
  | .write slice _ =>
    st.pd.readonly = true ∨ st.pd.limit = 0 ∨
      st.pd.used ≤ st.pd.limit ∨
      slice.length ≤ st.pd.allocated - st.pd.positionWrite
  | .resize size memory => Resizable memory st.pd size
  | .preallocate size _ =>
    st.pd.readonly = true ∨ size ≤ st.pd.allocated ∨
      (Roundable size ∧
        (st.pd.limit = 0 ∨ st.pd.used ≤ st.pd.limit))
  | _ => True

---
-- Agreement
---

open Option

/-
  The positions are in what is used, which is in the block, and
  the used bytes and the positions are those of the file.
-/
structure Agrees (st : State) : Prop where
  read_le : st.pd.positionRead ≤ st.pd.used
  write_le : st.pd.positionWrite ≤ st.pd.used
  used_le : st.pd.used ≤ st.pd.allocated
  contents : st.pd.bytes.take st.pd.used = st.file.contents
  read : st.pd.positionRead = st.file.read
  write : st.pd.positionWrite = st.file.write
  out : st.out = st.expected

/- The invariant of the runs -/
def Matches (st : State) : Prop :=
  Represents st.pd st.file ∧ st.out = st.expected

theorem Matches.agrees (hMatches : Matches st) : Agrees st := by
  rcases hMatches with ⟨hRep, hOut⟩
  have hBounds := hRep.bounds
  refine ⟨hBounds.1, hBounds.2.1, hBounds.2.2.1, ?_, hRep.read, hRep.write, hOut⟩
  rw [hRep.holds.used]
  exact (List.prefix_iff_eq_take.mp hRep.holds.bytes).symm

/- Each call does to the buffer what it does to the file. -/
theorem step_matches {op : Op} (hMatches : Matches st)
    (hAllowed : Allowed st op) (hFits : Fits st op) :
    ∃ st', step st op = some st' ∧ Matches st' := by
  rcases hMatches with ⟨hRep, hOut⟩
  cases op with
  | write slice alloc =>
    rcases write_spec hRep alloc hAllowed hFits with ⟨pd', n, err, hWrite, hRep'⟩
    exact ⟨_, step_write hWrite, hRep', hOut⟩
  | read len =>
    rcases read_spec hRep len with ⟨pd', err, hRead, hRep'⟩
    refine ⟨_, step_read hRead, hRep', ?_⟩
    dsimp only
    rw [hOut]
  | seek offset whence =>
    exact ⟨_, rfl, seek_spec hRep hAllowed.1 hAllowed.2 whence, hOut⟩
  | positionReadSet position =>
    exact ⟨_, rfl, positionReadSet_spec hRep position, hOut⟩
  | positionWriteSet position =>
    exact ⟨_, rfl, positionWriteSet_spec hRep position, hOut⟩
  | resize size memory =>
    rcases resize_spec hRep memory hFits with ⟨pd', err, hResize, hRep'⟩
    exact ⟨_, step_resize hResize, hRep', hOut⟩
  | preallocate size alloc =>
    exact ⟨_, rfl, preallocate_spec hRep alloc hFits, hOut⟩
  | limitSet limit alloc =>
    exact ⟨_, rfl, limitSet_spec hRep alloc limit, hOut⟩
  | adoptReadonly slice =>
    exact ⟨_, rfl, adoptReadonly_spec hRep hAllowed, hOut⟩
  | adoptReadwrite slice =>
    exact ⟨_, rfl, adoptReadwrite_spec hRep hAllowed, hOut⟩
  | binbufSteal alloc =>
    rcases binbufSteal_spec hRep alloc with ⟨pd', bytes, hSteal, ⟨rfl, hRep'⟩ | ⟨rfl, hRep'⟩⟩
    · exact ⟨_, step_refused hSteal, hRep', hOut⟩
    · refine ⟨_, step_stolen hSteal, hRep', ?_⟩
      dsimp only
      rw [hOut]

/-
  In every run whose calls meet the conditions no copy leaves
  its block, and the buffer agrees with the file.
-/
theorem buffer_correct {ops : List Op} (hOps : Runs.Guarded step
      (fun st op => Allowed st op ∧ Fits st op) .start ops) :
    ∃ st, Runs.run step .start ops = some st ∧ Agrees st := by
  rcases Runs.run_of_guarded Matches (fun st op hMatches hOk =>
      step_matches hMatches hOk.1 hOk.2)
    ⟨represents_new, rfl⟩ hOps with ⟨st, hRun, hMatches⟩
  exact ⟨st, hRun, hMatches.agrees⟩

/- Memory is always there. -/
def plenty : Alloc :=
  fun _ => some fun _ => 0

/- A block above the limit is adopted, and a byte of it read. -/
def adoptedSample : List Op :=
  [.limitSet 2 plenty, .adoptReadwrite [1, 2, 3, 4],
    .positionWriteSet 3, .write [9] plenty, .read 4]

theorem buffer_correct_sample :
    ∃ st, Runs.run step .start adoptedSample = some st ∧
      Agrees st := by
  apply buffer_correct
  refine ⟨⟨show 2 < CSize.bound by decide, trivial⟩,
    fun st₁ hFirst => ?_⟩
  obtain rfl := some.inj hFirst
  refine ⟨⟨show 4 ≤ CSize.blockMax by decide, trivial⟩,
    fun st₂ hSecond => ?_⟩
  obtain rfl := some.inj hSecond
  refine ⟨⟨show 3 < CSize.bound by decide, trivial⟩,
    fun st₃ hThird => ?_⟩
  obtain rfl := some.inj hThird
  refine ⟨⟨show InMemory _ 1 by decide,
    Or.inr (Or.inr (Or.inr (by decide)))⟩, fun st₄ hFourth => ?_⟩
  obtain rfl := some.inj hFourth
  exact ⟨⟨show 4 < CSize.bound by decide, trivial⟩, fun _ _ => trivial⟩

/-
  The block becomes smaller than the position that the write
  goes on with.
-/
theorem write_overruns :
    Runs.run step .start
      [.limitSet 4 plenty, .adoptReadwrite [1, 2, 3, 4, 5, 6, 7, 8],
      .positionWriteSet 8, .write [9] plenty] = none := by
  decide

end Efl.Io.Buffer
