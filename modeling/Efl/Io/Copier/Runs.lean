import Efl.Eina.Strbuf.Edits
import Efl.Io.Copier.Model
import Efl.Lib.Runs

/-
  Runs of a copier: what the destination accepted and what is
  in the buffer is what the source delivered.

  Main declarations:
    * `Op`, `step`
    * `Allowed`, `Bounded`
    * `read_spec`, `write_spec`
    * `copier_correct`
-/

---
-- Steps
---

namespace Efl.Io.Copier

open Bytes List Option

/- Allocations, and the answers of the source and destination -/
inductive Op where
  | job
      (memory : Strbuf.Memory) (alloc : Strbuf.Alloc)
      (answers : Answers)
  | flush
      (memory : Strbuf.Memory) (alloc : Strbuf.Alloc)
      (answers : Answers)
      (mayBlock ignoreLineDelimiter : Bool)

def step (pd : Data) : Op → Option Data
  | .job memory alloc answers => job memory alloc answers pd
  | .flush memory alloc answers mayBlock ignoreLineDelimiter =>
    flush memory alloc answers mayBlock ignoreLineDelimiter pd

/- There is memory. -/
def Allowed : Op → Prop
  | .job memory alloc _ => memory ≠ none ∧ ∀ i, alloc i ≠ none
  | .flush memory alloc _ _ _ => memory ≠ none ∧ ∀ i, alloc i ≠ none

/- What the source delivers, if it is asked -/
def Op.chunk : Op → List Byte
  | .job _ _ answers =>
    if answers.canRead then answers.read.getD [] else []
  | .flush _ _ answers mayBlock _ =>
    if !answers.eosFirst ∧ (mayBlock ∨ answers.canRead) then
      answers.read.getD []
    else []

/-
  The source delivers no more than there is to the limit, the
  sizes can be rounded up, and the bytes can be counted.
-/
structure Bounded (pd : Data) (chunk : List Byte) : Prop where
  limit : pd.buf.len < pd.bufferLimit →
    chunk.length ≤ pd.bufferLimit - pd.buf.len
  size : ∀ size, expandSize pd = some size →
    pd.buf.len + max size chunk.length < Strbuf.limit
  count : pd.input.length + chunk.length < 18446744073709551616

/-
  Nothing is lost and nothing is doubled, the counts are
  right, the limit is kept, and the copier is only done at the
  end of the stream and with nothing in the buffer.
-/
structure Correct (pd : Data) : Prop where
  copied : pd.accepted ++ pd.pending = pd.input
  events : pd.dataEvents.flatten = pd.accepted
  read : pd.progressRead = pd.input.length
  written : pd.progressWritten = pd.accepted.length
  limit : 0 < pd.bufferLimit →
    pd.pending.length ≤ pd.bufferLimit
  done : ∀ note ∈ pd.doneEvents, note = (true, 0)

---
-- Reading
---

/- What is kept, with `l` in the buffer -/
structure Inv (pd : Data) (l : List Byte) : Prop where
  holds : Strbuf.Holds l pd.buf
  copied : pd.accepted ++ l = pd.input
  events : pd.dataEvents.flatten = pd.accepted
  read : pd.progressRead = pd.input.length
  written : pd.progressWritten = pd.accepted.length
  count : pd.input.length < 18446744073709551616
  limit : 0 < pd.bufferLimit → l.length ≤ pd.bufferLimit
  done : ∀ note ∈ pd.doneEvents, note = (true, 0)
  small : l.length < Strbuf.limit

variable {pd : Data} {l : List Byte}

theorem doneSet_false (pd : Data) (eos : Bool) :
    doneSet pd eos false = { pd with done := false } := by
  unfold doneSet
  split
  case isTrue hDone => rw [← hDone]
  case isFalse => rfl

theorem pending_of_holds (hHolds : Strbuf.Holds l pd.buf) : pd.pending = l := by
  rcases hHolds.content with ⟨rest, hOwn⟩
  rw [Data.pending, hHolds.bytes_eq, ← hOwn, hHolds.len, take_left]

theorem Inv.correct (hInv : Inv pd l) : Correct pd := by
  have hPending := pending_of_holds hInv.holds
  exact
    { copied := hPending ▸ hInv.copied
      events := hInv.events
      read := hInv.read
      written := hInv.written
      limit := hPending ▸ hInv.limit
      done := hInv.done }

variable {buf : Strbuf.Buffer}

/- The slice has room for what was asked for. -/
theorem expand_spec {size : Nat} (junk : Nat → Byte) (hHolds : Strbuf.Holds l buf)
    (hSize : buf.len + size < Strbuf.limit) :
    ∃ buf' len, expand (some junk) buf size = some (buf', len) ∧
      Strbuf.Holds l buf' ∧ l.length + len + 1 = buf'.size := by
  have hWrap : (buf.len + size) % Strbuf.sizeMax = buf.len + size := by
    unfold Strbuf.limit Strbuf.maxStep Strbuf.sizeMax at *
    exact Nat.mod_eq_of_lt (by omega)
  have hLen := hHolds.len
  unfold expand
  rw [hWrap]
  by_cases hFits : buf.len + size < buf.size
  · refine ⟨buf, buf.size - buf.len - 1, if_pos hFits, hHolds, ?_⟩
    omega
  · rcases Strbuf.grow_spec junk (Or.inl hHolds) hSize with ⟨buf', hGrow, hGives, hMore, -⟩
    have hLen' := hGives.holds.len
    refine ⟨buf', buf'.size - buf'.len - 1, ?_, hGives.holds, ?_⟩
    · dsimp only
      rw [if_neg hFits, hGrow]
      rfl
    · omega

/- The source writes behind the content. -/
theorem chunk_spec {chunk : List Byte} (hHolds : Strbuf.Holds l buf)
    (hRoom : l.length + chunk.length + 1 ≤ buf.size) :
    ∃ buf' rest, buf.write buf.len chunk = some buf' ∧
      Strbuf.Holds l buf' ∧ buf'.own = l ++ (chunk ++ rest) ∧ buf'.size = buf.size := by
  rcases hHolds.content with ⟨rest, hOwn⟩
  have hOwnLength := congrArg List.length hOwn
  rw [length_append] at hOwnLength
  have hSizeLe := hHolds.size_le
  have hBlock := Block.write_end l (show chunk.length ≤ rest.length by omega)
  rw [hOwn, ← hHolds.len] at hBlock
  refine ⟨_, rest.drop chunk.length, Strbuf.write_owned hHolds.place hBlock, ?_, rfl, rfl⟩
  exact
    { place := hHolds.place
      len := hHolds.len
      content := prefix_append _ _
      room := hHolds.room
      size_le := hSizeLe.trans (Block.length_write hBlock).ge
      step_pos := hHolds.step_pos
      step_le := hHolds.step_le }

/- What was delivered is at the end of the buffer. -/
theorem received_spec {rest chunk : List Byte} (hInv : Inv pd l)
    (hOwn : pd.buf.own = l ++ (chunk ++ rest))
    (hRoom : l.length + chunk.length + 1 ≤ pd.buf.size) (hCount :
    pd.input.length + chunk.length < 18446744073709551616) (hLimit :
    0 < pd.bufferLimit → l.length + chunk.length ≤ pd.bufferLimit)
    (hSmall : l.length + chunk.length < Strbuf.limit) : Inv (received pd chunk) (l ++ chunk) := by
  have hLen := hInv.holds.len
  have hUse : use pd.buf chunk.length = ({ pd.buf with len := pd.buf.len + chunk.length }, true) :=
    if_neg (by omega)
  have hContent : l ++ chunk <+: pd.buf.own := ⟨rest, by rw [hOwn, append_assoc]⟩
  have hHolds : Strbuf.Holds (l ++ chunk) { pd.buf with len := pd.buf.len + chunk.length } :=
    { place := hInv.holds.place
      len := by
        rw [length_append]
        exact congrArg (· + chunk.length) hLen
      content := hContent
      room := by
        rw [length_append]
        exact hRoom
      size_le := hInv.holds.size_le
      step_pos := hInv.holds.step_pos
      step_le := hInv.holds.step_le }
  have hRead : (pd.progressRead + chunk.length) %
      18446744073709551616 = (pd.input ++ chunk).length := by
    rw [length_append, hInv.read]
    exact Nat.mod_eq_of_lt hCount
  have hCopied : pd.accepted ++ (l ++ chunk) = pd.input ++ chunk := by
    rw [← append_assoc, hInv.copied]
  have hCount' : (pd.input ++ chunk).length <
      18446744073709551616 := by
    rw [length_append]
    exact hCount
  have hLimit' : 0 < pd.bufferLimit → (l ++ chunk).length ≤ pd.bufferLimit := by
    rw [length_append]
    exact hLimit
  have hSmall' : (l ++ chunk).length < Strbuf.limit := by
    rw [length_append]
    exact hSmall
  unfold received
  rw [hUse]
  dsimp only
  rw [doneSet_false]
  exact ⟨hHolds, hCopied, hInv.events, hRead, hInv.written, hCount', hLimit', hInv.done, hSmall'⟩

/- Another buffer with the same content -/
theorem Inv.buffer (hInv : Inv pd l) (hHolds : Strbuf.Holds l buf) : Inv { pd with buf := buf } l :=
  ⟨hHolds, hInv.copied, hInv.events, hInv.read, hInv.written,
    hInv.count, hInv.limit, hInv.done, hInv.small⟩

/- How the limit shows in the size to read -/
theorem used_lt_of_expandSize {size : Nat}
    (hSize : expandSize pd = some size) (hLimit : 0 < pd.bufferLimit) :
    pd.buf.len < pd.bufferLimit := by
  unfold expandSize at hSize
  rw [if_pos hLimit] at hSize
  split at hSize
  · exact nomatch hSize
  · omega

variable {memory : Strbuf.Memory}

theorem read_spec {answers : Answers} (hMemory : memory ≠ none)
    (hInv : Inv pd l) (hBounded : Bounded pd (answers.read.getD [])) :
    ∃ pd' l', read memory answers pd = some pd' ∧ Inv pd' l' := by
  rcases ne_none_iff_exists'.mp hMemory with ⟨junk, rfl⟩
  unfold read
  cases hSize : expandSize pd with
  | none => exact ⟨pd, l, rfl, hInv⟩
  | some size =>
    have hRound := hBounded.size size hSize
    have hAsked : pd.buf.len + size < Strbuf.limit := by omega
    rcases expand_spec junk hInv.holds hAsked with ⟨buf, len, hExpand, hHolds, hRoom⟩
    have hInv' := hInv.buffer hHolds
    have hLen := hInv.holds.len
    dsimp only
    rw [hExpand]
    dsimp only [bind_eq_bind, bind_some]
    by_cases hNone : len = 0
    · exact ⟨_, l, if_pos hNone, hInv'⟩
    rw [if_neg hNone]
    cases hRead : answers.read with
    | none => exact ⟨_, l, rfl, hInv'⟩
    | some bytes =>
      rw [hRead, getD_some] at hBounded hRound
      have hCut : (bytes.take len).length ≤ bytes.length := length_take_le' len bytes
      have hCutRoom : (bytes.take len).length ≤ len := length_take_le len bytes
      have hChunk : l.length + (bytes.take len).length + 1 ≤ buf.size := by omega
      rcases chunk_spec hHolds hChunk with ⟨buf', rest, hWrite, hHolds', hOwn, hBufSize⟩
      have hCount := hBounded.count
      refine ⟨_, l ++ bytes.take len, by dsimp only; rw [hWrite]; rfl,
        received_spec (hInv.buffer hHolds') hOwn ?_ ?_ ?_ ?_⟩
      · exact hBufSize ▸ hChunk
      · exact show pd.input.length + _ < _ by omega
      · intro hLimit
        have hUsed := used_lt_of_expandSize hSize hLimit
        have hLimit' := hBounded.limit hUsed
        exact show l.length + _ ≤ pd.bufferLimit by omega
      · omega

---
-- Writing
---

/- What is found is inside the slice. -/
theorem sliceFind_le {needle slice : List Byte} {p : Nat}
    (hFind : sliceFind needle slice = some p) : p + needle.length ≤ slice.length := by
  induction slice generalizing p with
  | nil => exact nomatch hFind
  | cons s slice ih =>
    unfold sliceFind at hFind
    split at hFind
    case isTrue hPrefix =>
      obtain rfl := some.inj hFind
      have hLe := (List.isPrefixOf_iff_prefix.mp hPrefix).length_le
      omega
    case isFalse =>
      rcases map_eq_some_iff.mp hFind with ⟨q, hRest, rfl⟩
      have hLe := ih hRest
      rw [length_cons]
      omega

theorem writeLength_le {eos : Bool} {len : Nat} (hPending : pd.pending.length = pd.buf.len)
    (hWrite : writeLength eos pd = some len) : len ≤ pd.buf.len := by
  unfold writeLength at hWrite
  dsimp only at hWrite
  split at hWrite
  · exact nomatch hWrite
  split at hWrite
  · split at hWrite
    case h_1 p hFind =>
      obtain rfl := some.inj hWrite
      exact hPending ▸ sliceFind_le hFind
    case h_2 =>
      split at hWrite
      · exact nomatch hWrite
      · exact (some.inj hWrite).ge
  · exact (some.inj hWrite).ge

theorem writeLength_forced {eos : Bool}
    (hForce : pd.forceDispatch = true) :
    writeLength eos pd =
      if pd.buf.len = 0 then none else some pd.buf.len := by
  rw [writeLength, hForce]
  simp

/- The first `m` bytes are accepted, and not in the buffer. -/
theorem Inv.written_spec {m : Nat} (job : Bool) (hInv : Inv pd l)
    (hFits : m ≤ l.length) (hHolds : Strbuf.Holds (l.drop m) buf) :
    Inv
      { pd with
        buf := buf
        progressWritten := (pd.progressWritten + m) % 18446744073709551616
        accepted := pd.accepted ++ l.take m
        done := false
        job := job
        dataEvents := pd.dataEvents ++ [l.take m] } (l.drop m) := by
  have hSplit := congrArg List.length hInv.copied
  rw [length_append] at hSplit
  have hDrop : (l.drop m).length ≤ l.length := by
    rw [length_drop]
    exact Nat.sub_le _ _
  have hCount := hInv.count
  constructor
  case holds => exact hHolds
  case copied =>
    show (pd.accepted ++ l.take m) ++ l.drop m = pd.input
    rw [append_assoc, take_append_drop, hInv.copied]
  case events =>
    show (pd.dataEvents ++ [l.take m]).flatten = pd.accepted ++ l.take m
    rw [flatten_append, hInv.events, flatten_singleton]
  case read => exact hInv.read
  case written =>
    show (pd.progressWritten + m) % 18446744073709551616 =
      (pd.accepted ++ l.take m).length
    rw [length_append, length_take_of_le hFits, hInv.written]
    exact Nat.mod_eq_of_lt (by omega)
  case count => exact hCount
  case limit =>
    intro hLimit
    exact hDrop.trans (hInv.limit hLimit)
  case done => exact hInv.done
  case small => exact hDrop.trans_lt hInv.small

variable {alloc : Strbuf.Alloc}

theorem write_spec (answers : Answers) (hAlloc : ∀ i, alloc i ≠ none)
    (hInv : Inv pd l) :
    ∃ pd' l', write alloc answers pd = some pd' ∧
      Inv pd' l' ∧ (pd.forceDispatch = true → l' = l.drop (answers.write.getD 0)) := by
  have hPending := pending_of_holds hInv.holds
  have hLen := hInv.holds.len
  unfold write
  cases hLength : writeLength answers.eosWrite pd with
  | none =>
    refine ⟨pd, l, rfl, hInv, fun hForce => ?_⟩
    rw [length_eq_zero_iff.mp (show l.length = 0 by
      rw [writeLength_forced hForce] at hLength
      split at hLength
      · omega
      · exact nomatch hLength), drop_nil]
  | some len =>
    have hLe := writeLength_le (hPending ▸ hLen.symm) hLength
    cases answers.write with
    | none => exact ⟨pd, l, rfl, hInv, fun _ => rfl⟩
    | some n =>
      generalize hm : min n len = m
      have hFits : m ≤ l.length := by omega
      have hForced : pd.forceDispatch = true →
          l.drop m = l.drop n := fun hForce => by
        rw [writeLength_forced hForce] at hLength
        split at hLength
        · exact nomatch hLength
        · obtain rfl := some.inj hLength
          rw [← hm, hLen]
          rcases Nat.le_total n l.length with hMore | hMore
          · rw [Nat.min_eq_left hMore]
          · rw [Nat.min_eq_right hMore, drop_length, drop_eq_nil_of_le hMore]
      have hSlice : Block.read pd.buf.bytes 0 m = some (l.take m) := by
        rw [hInv.holds.bytes_eq]
        exact Block.read_prefix hInv.holds.content (by omega)
      have hSliceLength : (l.take m).length = m := length_take_of_le hFits
      dsimp only
      rw [hm, hSlice]
      dsimp only [bind_eq_bind, bind_some]
      rw [hSliceLength]
      by_cases hNone : m = 0
      · refine ⟨pd, l, if_pos hNone, hInv, fun hForce => ?_⟩
        rw [getD_some, ← hForced hForce, hNone, drop_zero]
      rw [if_neg hNone, doneSet_false]
      unfold dispatchDataEvents
      dsimp only
      rw [hSlice]
      dsimp only [bind_eq_bind, bind_some]
      rw [Nat.min_eq_right (by omega : m ≤ pd.buf.len)]
      rcases Strbuf.remove_spec hAlloc (Or.inl hInv.holds)
          (show 0 < min m l.length by omega) hInv.small with ⟨buf, hRemove, hGives⟩
      rw [hRemove]
      have hRest := hGives.holds
      rw [take_zero, nil_append, Nat.zero_max] at hRest
      exact ⟨_, _, rfl, hInv.written_spec true hFits hRest, hForced⟩

---
-- Runs
---

theorem Inv.finish_spec (hInv : Inv pd l) (answers : Answers) : Inv (finish answers pd) l := by
  unfold finish
  split
  case isTrue hEnd =>
    unfold doneSet
    rw [if_neg (by simpa using hEnd.2.1), if_pos rfl]
    refine ⟨hInv.holds, hInv.copied, hInv.events, hInv.read,
      hInv.written, hInv.count, hInv.limit, ?_, hInv.small⟩
    intro note hNote
    rcases mem_append.mp hNote with hOld | hNew
    · exact hInv.done note hOld
    · rw [mem_singleton.mp hNew, hEnd.1, hEnd.2.2]
  case isFalse => exact hInv

theorem Inv.with_job (hInv : Inv pd l) (job : Bool) : Inv { pd with job := job } l :=
  ⟨hInv.holds, hInv.copied, hInv.events, hInv.read, hInv.written,
    hInv.count, hInv.limit, hInv.done, hInv.small⟩

theorem Inv.with_forceDispatch (hInv : Inv pd l) (force : Bool) :
    Inv { pd with forceDispatch := force } l :=
  ⟨hInv.holds, hInv.copied, hInv.events, hInv.read, hInv.written,
    hInv.count, hInv.limit, hInv.done, hInv.small⟩

theorem job_spec {answers : Answers} (hMemory : memory ≠ none)
    (hAlloc : ∀ i, alloc i ≠ none) (hInv : Inv pd l) (hBounded :
    Bounded pd (if answers.canRead then answers.read.getD [] else [])) :
    ∃ pd' l', job memory alloc answers pd = some pd' ∧ Inv pd' l' := by
  have hRead : ∃ pd₁ l₁, (bif answers.canRead then
        read memory answers { pd with job := false }
      else some { pd with job := false }) = some pd₁ ∧ Inv pd₁ l₁ := by
    cases hCan : answers.canRead with
    | false => exact ⟨_, l, rfl, hInv.with_job false⟩
    | true =>
      rw [hCan, if_pos rfl] at hBounded
      exact read_spec hMemory (hInv.with_job false) ⟨hBounded.limit, hBounded.size, hBounded.count⟩
  rcases hRead with ⟨pd₁, l₁, hRead, hInv₁⟩
  have hWrite : ∃ pd₂ l₂, (bif answers.canWrite then write alloc answers pd₁
      else some pd₁) = some pd₂ ∧ Inv pd₂ l₂ := by
    cases answers.canWrite with
    | false => exact ⟨pd₁, l₁, rfl, hInv₁⟩
    | true =>
      rcases write_spec answers hAlloc hInv₁ with ⟨pd₂, l₂, hWrite, hInv₂, -⟩
      exact ⟨pd₂, l₂, hWrite, hInv₂⟩
  rcases hWrite with ⟨pd₂, l₂, hWrite, hInv₂⟩
  refine ⟨finish answers pd₂, l₂, ?_, hInv₂.finish_spec answers⟩
  unfold job
  dsimp only
  rw [hRead]
  dsimp only [bind_eq_bind, bind_some]
  rw [hWrite]
  rfl

theorem flush_spec {answers : Answers}
    {mayBlock ignoreLineDelimiter : Bool} (hMemory : memory ≠ none)
    (hAlloc : ∀ i, alloc i ≠ none) (hInv : Inv pd l)
    (hBounded : Bounded pd (if !answers.eosFirst ∧
    (mayBlock ∨ answers.canRead) then answers.read.getD []
      else [])) :
    ∃ pd' l',
      flush memory alloc answers mayBlock ignoreLineDelimiter pd =
        some pd' ∧
      Inv pd' l' := by
  have hRead : ∃ pd₁ l₁,
      (bif !answers.eosFirst && (mayBlock || answers.canRead) then
        read memory answers pd
      else some pd) = some pd₁ ∧ Inv pd₁ l₁ := by
    cases hCan :
        !answers.eosFirst && (mayBlock || answers.canRead) with
    | false => exact ⟨pd, l, rfl, hInv⟩
    | true =>
      rw [Bool.and_eq_true, Bool.or_eq_true] at hCan
      rw [if_pos hCan] at hBounded
      exact read_spec hMemory hInv hBounded
  rcases hRead with ⟨pd₁, l₁, hRead, hInv₁⟩
  unfold flush
  rw [hRead]
  dsimp only [bind_eq_bind, bind_some]
  cases mayBlock || answers.canWrite with
  | false => exact ⟨_, l₁, rfl, hInv₁.finish_spec answers⟩
  | true =>
    rcases write_spec answers hAlloc (hInv₁.with_forceDispatch ignoreLineDelimiter) with
      ⟨pd₂, l₂, hWrite, hInv₂, -⟩
    refine ⟨_, l₂, ?_, (hInv₂.with_forceDispatch false).finish_spec answers⟩
    dsimp only [cond_true]
    rw [hWrite]
    rfl

theorem new_spec (limit size : Nat) (delimiter : List Byte) :
    Inv (Data.new limit size delimiter) [] := by
  rcases Strbuf.init_spec (fun _ => 0)
      ⟨[], false, [], .null, 0, 0, 0, false⟩ with ⟨buf, hInit, hEnds⟩
  have hHolds : Strbuf.Holds [] (Data.new limit size delimiter).buf := by
    unfold Data.new
    rw [hInit]
    exact hEnds.holds
  refine ⟨hHolds, rfl, rfl, rfl, rfl, ?_, ?_, ?_, ?_⟩
  · exact show 0 < 18446744073709551616 by decide
  · exact fun _ => Nat.zero_le _
  · exact fun note hNote => nomatch hNote
  · exact show 0 < Strbuf.limit by decide

/- Every job and every flush keeps what is copied. -/
theorem step_spec {op : Op} (hInv : Inv pd l)
    (hAllowed : Allowed op) (hBounded : Bounded pd op.chunk) :
    ∃ pd' l', step pd op = some pd' ∧ Inv pd' l' := by
  cases op with
  | job memory alloc answers =>
    exact job_spec hAllowed.1 hAllowed.2 hInv hBounded
  | flush memory alloc answers mayBlock ignoreLineDelimiter =>
    exact flush_spec hAllowed.1 hAllowed.2 hInv hBounded

theorem run_inv (limit size : Nat) (delimiter : List Byte) (ops :
    List Op) (hGuarded : Runs.Guarded step (fun pd op => Allowed op ∧
    Bounded pd op.chunk) (Data.new limit size delimiter) ops) :
    ∃ pd, Runs.run step (Data.new limit size delimiter) ops =
        some pd ∧
      ∃ l, Inv pd l :=
  Runs.run_of_guarded (fun pd => ∃ l, Inv pd l)
    (fun pd op hInv hOk => by
      rcases hInv with ⟨l, hInv⟩
      rcases step_spec hInv hOk.1 hOk.2 with ⟨pd', l', hStep, hInv'⟩
      exact ⟨pd', hStep, l', hInv'⟩) ⟨[], new_spec limit size delimiter⟩ hGuarded

/-
  A copier with any limit, chunk size and delimiter, and any
  jobs and flushes
-/
theorem copier_correct (limit size : Nat) (delimiter : List Byte) (ops :
    List Op) (hGuarded : Runs.Guarded step (fun pd op => Allowed op ∧
    Bounded pd op.chunk) (Data.new limit size delimiter) ops) :
    ∃ pd,
      Runs.run step (Data.new limit size delimiter) ops =
        some pd ∧
      Correct pd := by
  rcases run_inv limit size delimiter ops hGuarded with
    ⟨pd, hRun, l, hInv⟩
  exact ⟨pd, hRun, hInv.correct⟩

theorem copier_correct_sample :
    ∃ pd, Runs.run step (Data.new 4 0 [10])
      [.job (some fun _ => 0) (fun _ => some fun _ => 0) ⟨true,
      some [97, 10], true, some 2, false, false, true⟩] =
        some pd ∧
      Correct pd := by
  apply copier_correct
  refine ⟨⟨⟨by decide, fun i => by simp⟩, ?_, ?_, ?_⟩,
    fun _ _ => trivial⟩
  · decide
  · intro size hSize
    have hFour : 4 = size := some.inj hSize
    rw [← hFour]
    decide
  · decide

/- The slice to read into is longer than what was asked for. -/
theorem limit_is_exceeded :
    ¬ ∀ limit size delimiter ops pd,
      (∀ op ∈ ops, Allowed op) →
      Runs.run step (Data.new limit size delimiter) ops =
        some pd →
      Correct pd := by
  intro hClaim
  have hCorrect := hClaim 1 0 []
    [.job (some fun _ => 0) (fun _ => some fun _ => 0)
      ⟨true, some [97, 98], false, none, false, false, false⟩] _
    (by simp [Allowed]) rfl
  have hLimit := hCorrect.limit (by decide)
  exact absurd hLimit (by decide)

end Efl.Io.Copier
