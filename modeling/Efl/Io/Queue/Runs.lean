import Efl.Io.Queue.Contents
import Efl.Lib.Runs

/-
  Runs of a queue: what is read is what was written, and what
  the flags tell about it.

  Main declarations:
    * `State`, `step`
    * `Fifo`, `Sound`
    * `queue_fifo`
    * `queue_ready`
-/

---
-- Steps
---

namespace Efl.Io.Queue

open Bytes List Option

/-
  A queue, with the bytes that were taken out, those that were
  taken in, whether the end was marked, and whether bytes were
  taken in after that.
-/
structure State where
  pd : Data
  out : List Byte
  accepted : List Byte
  marked : Bool
  late : Bool

def State.start : State where
  pd := .new
  out := []
  accepted := []
  marked := false
  late := false

inductive Op where
  | write (slice : List Byte) (alloc : Alloc)
  | read (len : Nat)
  | discard (amount : Nat)
  | preallocate (size : Nat) (alloc : Alloc)
  | limitSet (limit : Nat) (alloc : Alloc)
  | clear
  | eosMark

def step (st : State) : Op → Option State
  | .write slice alloc => do
    let (pd, n, err) ← write alloc st.pd slice
    some
      { st with
        pd := pd
        accepted := st.accepted ++ slice.take n
        late := st.late || (st.marked && err.isNone) }
  | .read len => do
    let (pd, bytes, _) ← read st.pd len
    some { st with pd := pd, out := st.out ++ bytes }
  | .discard amount => do
    let slice ← sliceGet st.pd
    some
      { st with
        pd := discard st.pd amount
        out := st.out ++ slice.take amount }
  | .preallocate size alloc =>
    some { st with pd := preallocate alloc st.pd size }
  | .limitSet limit alloc => do
    let pd ← limitSet alloc st.pd limit
    some { st with pd := pd }
  | .clear => do
    let slice ← sliceGet st.pd
    some { st with pd := clear st.pd, out := st.out ++ slice }
  | .eosMark => some { st with pd := eosMark st.pd, marked := true }

variable {slice : List Byte} {alloc : Alloc}

theorem step_write {st : State} {pd' : Data} {n : Nat} {err : Option Error}
    (hWrite : write alloc st.pd slice = some (pd', n, err)) :
    step st (.write slice alloc) =
      some
        { st with
          pd := pd'
          accepted := st.accepted ++ slice.take n
          late := st.late || (st.marked && err.isNone) } := by
  simp [step, hWrite]

theorem step_read {st : State} {len : Nat} {pd' : Data} {bytes : List Byte} {err : Option Error}
    (hRead : read st.pd len = some (pd', bytes, err)) :
    step st (.read len) = some { st with pd := pd', out := st.out ++ bytes } := by
  simp [step, hRead]

theorem step_discard {st : State} (amount : Nat)
    (hSlice : sliceGet st.pd = some slice) :
    step st (.discard amount) =
      some
        { st with
          pd := discard st.pd amount
          out := st.out ++ slice.take amount } := by
  simp [step, hSlice]

theorem step_limitSet {st : State} {limit : Nat} {pd' : Data}
    (hSet : limitSet alloc st.pd limit = some pd') :
    step st (.limitSet limit alloc) = some { st with pd := pd' } := by
  simp [step, hSet]

theorem step_clear {st : State} (hSlice : sliceGet st.pd = some slice) :
    step st .clear = some { st with pd := clear st.pd, out := st.out ++ slice } := by
  simp [step, hSlice]

/- What is written is in the memory besides the queue. -/
def Allowed (st : State) : Op → Prop
  | .write slice _ => InMemory st.pd slice.length
  | .read len => len < CSize.bound
  | .discard amount => amount < CSize.bound
  | .preallocate size _ => size < CSize.bound
  | .limitSet limit _ => limit < CSize.bound
  | .clear => True
  | .eosMark => True

/-
  A size can be rounded up, and a block can be made smaller
  when the limit says so.
-/
def Sound (st : State) : Op → Prop
  | .preallocate size _ => Roundable size
  | .limitSet limit alloc =>
    0 < limit → limit < st.pd.allocated → alloc 0 ≠ none
  | _ => True

/- A limit that is set cuts nothing off. -/
def Keeps (st : State) : Op → Prop
  | .limitSet limit _ => limit = 0 ∨ st.pd.usage ≤ limit
  | _ => True

---
-- Order
---

/-
  What was taken out and the current slice are what was taken
  in, and the positions are in their order.
-/
def Fifo (st : State) : Prop :=
  (∃ slice, sliceGet st.pd = some slice ∧
    st.out ++ slice = st.accepted) ∧
  st.pd.positionRead ≤ st.pd.positionWrite ∧
  st.pd.positionWrite ≤ st.pd.allocated ∧
  (0 < st.pd.limit → st.pd.usage ≤ st.pd.limit)

/- The contents are what is between. -/
def Between (st : State) (contents : List Byte) : Prop :=
  Inv st.pd contents ∧ st.out ++ contents = st.accepted

theorem sliceGet_spec {pd : Data} {contents : List Byte}
    (hInv : Inv pd contents) : sliceGet pd = some contents := by
  unfold sliceGet
  rw [if_neg (by simp [hInv.isOpen]), hInv.layout.usage_eq,
    hInv.layout.read_slice (Nat.le_refl _), take_length]

theorem Between.fifo {st : State} {contents : List Byte}
    (hBetween : Between st contents) : Fifo st := by
  rcases hBetween with ⟨hInv, hAll⟩
  have hBounds := hInv.layout.bounds
  refine ⟨⟨contents, sliceGet_spec hInv, hAll⟩, by omega, hBounds.2.1, fun hPos => ?_⟩
  rw [hInv.layout.usage_eq]
  exact hInv.usage_le hPos

/- Each call moves bytes from the end to the front. -/
theorem step_between {st : State} {contents : List Byte} {op : Op}
    (hBetween : Between st contents) (hAllowed : Allowed st op)
    (hSound : Sound st op) (hKeeps : Keeps st op) :
    ∃ st' contents', step st op = some st' ∧ Between st' contents' := by
  rcases hBetween with ⟨hInv, hAll⟩
  have hSlice := sliceGet_spec hInv
  cases op with
  | write slice alloc =>
    rcases write_spec alloc hInv hAllowed with ⟨pd', n, err, hWrite, hInv', -⟩
    refine ⟨_, contents ++ slice.take n, step_write hWrite, hInv', ?_⟩
    rw [← append_assoc, hAll]
  | read len =>
    rcases read_spec hInv len with ⟨pd', bytes, err, hRead, rfl, hInv', -⟩
    refine ⟨_, contents.drop len, step_read hRead, hInv', ?_⟩
    rw [append_assoc, take_append_drop]
    exact hAll
  | discard amount =>
    refine ⟨_, contents.drop amount, step_discard amount hSlice, (discard_spec hInv amount).1, ?_⟩
    rw [append_assoc, take_append_drop]
    exact hAll
  | preallocate size alloc =>
    exact ⟨_, contents, rfl, (preallocate_spec alloc hInv hSound).1, hAll⟩
  | limitSet limit alloc =>
    rcases limitSet_spec alloc hInv hSound with ⟨pd', hSet, hInv', -⟩
    have hSame : limited contents limit = contents := by
      unfold limited
      split
      · rfl
      case isFalse hPos =>
        apply take_of_length_le
        rw [← hInv.layout.usage_eq]
        exact hKeeps.resolve_left hPos
    rw [hSame] at hInv'
    exact ⟨_, contents, step_limitSet hSet, hInv', hAll⟩
  | clear =>
    refine ⟨_, [], step_clear hSlice, (clear_spec hInv).1, ?_⟩
    rw [append_nil]
    exact hAll
  | eosMark => exact ⟨_, contents, rfl, (eosMark_spec hInv).1, hAll⟩

/-
  In every run whose sizes can be rounded and whose limits can
  be kept, the bytes come out in the order in which they came
  in.
-/
theorem queue_fifo {ops : List Op} (hOps : Runs.Guarded step (fun st
      op => Allowed st op ∧ Sound st op ∧ Keeps st op) .start ops) :
    ∃ st, Runs.run step .start ops = some st ∧ Fifo st := by
  rcases Runs.run_of_guarded (fun st => ∃ contents, Between st contents)
    (fun st op hInv hOk => by
      rcases hInv with ⟨contents, hBetween⟩
      rcases step_between hBetween hOk.1 hOk.2.1 hOk.2.2 with
        ⟨st', contents', hStep, hBetween'⟩
      exact ⟨st', hStep, contents', hBetween'⟩)
    ⟨[], inv_new, rfl⟩ hOps with ⟨st, hRun, contents, hBetween⟩
  exact ⟨st, hRun, hBetween.fifo⟩

/- Memory is always there. -/
def plenty : Alloc :=
  fun _ => some fun _ => 0

/- Three bytes, one of which is read, below a limit -/
def fifoSample : List Op :=
  [.write [1, 2, 3] plenty, .read 1, .limitSet 2 plenty]

theorem queue_fifo_sample :
    ∃ st, Runs.run step .start fifoSample = some st ∧ Fifo st := by
  apply queue_fifo
  refine ⟨⟨show InMemory Data.new 3 by decide, trivial, trivial⟩,
    fun st₁ hFirst => ?_⟩
  obtain rfl := some.inj hFirst
  refine ⟨⟨show 1 < CSize.bound by decide, trivial, trivial⟩,
    fun st₂ hSecond => ?_⟩
  obtain rfl := some.inj hSecond
  exact ⟨⟨show 2 < CSize.bound by decide, fun _ _ hNone =>
    (nomatch hNone), Or.inr (by decide)⟩, fun _ _ => trivial⟩

/- A size that cannot be rounded up frees the block. -/
theorem preallocate_frees :
    ∃ st, Runs.run step .start
        [.write [1] plenty, .preallocate 18446744073709551615 plenty] =
          some st ∧
      st.pd.positionWrite = 1 ∧ st.pd.allocated = 0 ∧
      sliceGet st.pd = none :=
  ⟨_, rfl, by decide, by decide, by decide⟩

---
-- Readiness
---

/- There are as many bytes as the limit allows. -/
def Full (pd : Data) : Prop :=
  0 < pd.limit ∧ pd.limit ≤ pd.usage

instance (pd : Data) : Decidable (Full pd) :=
  inferInstanceAs (Decidable (_ ∧ _))

/-
  What the flags say: bytes can be read, bytes can be written,
  and the end is reached.
-/
structure Ready (st : State) : Prop where
  canRead : st.pd.canRead = true ↔ 0 < st.pd.usage
  canWrite : st.marked = false → ¬ Full st.pd →
    st.pd.canWrite = true
  late : st.late = false
  marked : st.marked = true →
    (st.pd.eos = true ↔ st.pd.usage = 0)
  unmarked : st.marked = false → st.pd.eos = false

/-
  No byte leaves a full queue before the end is marked; a
  write is refused only by a full queue; and nothing is
  written after the end was reached.
-/
def Responsive (st : State) : Op → Prop
  | .write slice alloc =>
    st.pd.eos = false ∧
      (st.pd.pendingEos = false →
        NoRoom (alloc 0) st.pd slice.length → Full st.pd)
  | .read len => Full st.pd → 0 < len → st.marked = true
  | .discard amount => Full st.pd → 0 < amount → st.marked = true
  | .clear => Full st.pd → st.marked = true
  | _ => True

/- The flags of a queue with some contents -/
structure Flow (st : State) (contents : List Byte) : Prop where
  inv : Inv st.pd contents
  canRead : st.pd.canRead = decide (0 < contents.length)
  canWrite : st.marked = false →
    (st.pd.limit = 0 ∨ contents.length < st.pd.limit) →
    st.pd.canWrite = true
  late : st.late = false
  unmarked : st.marked = false →
    st.pd.pendingEos = false ∧ st.pd.eos = false
  pending : st.marked = true → contents ≠ [] →
    st.pd.pendingEos = true ∧ st.pd.eos = false
  reached : st.marked = true → contents = [] →
    st.pd.pendingEos = false ∧ st.pd.eos = true

variable {st : State} {contents : List Byte}

theorem full_iff {pd : Data} (hInv : Inv pd contents) :
    ¬ Full pd ↔ pd.limit = 0 ∨ contents.length < pd.limit := by
  unfold Full
  rw [hInv.layout.usage_eq]
  omega

section

variable (hFlow : Flow st contents)

include hFlow

theorem Flow.ready : Ready st := by
  have hUsage := hFlow.inv.layout.usage_eq
  refine ⟨?_, ?_, hFlow.late, ?_, fun hNot =>
    (hFlow.unmarked hNot).2⟩
  · rw [hFlow.canRead, hUsage, decide_eq_true_eq]
  · intro hNot hFull
    exact hFlow.canWrite hNot ((full_iff hFlow.inv).mp hFull)
  · intro hMarked
    rw [hUsage, length_eq_zero_iff]
    constructor
    · intro hEos
      by_contra hSome
      have hNot := (hFlow.pending hMarked hSome).2
      rw [hEos] at hNot
      exact nomatch hNot
    · exact fun hNil => (hFlow.reached hMarked hNil).2

/- After bytes were taken from a queue that was not full -/
theorem Flow.taken {pd' : Data} {n : Nat} {out : List Byte} (hInv : Inv pd' (contents.drop n))
    (hTaken : Taken st.pd pd' (contents.drop n).length)
    (hFull : Full st.pd → 0 < n → st.marked = true) :
    Flow { st with pd := pd', out := out } (contents.drop n) := by
  have hLength : (contents.drop n).length = contents.length - n := length_drop
  refine ⟨hInv, hTaken.canRead, ?_, hFlow.late, ?_, ?_, ?_⟩
  · intro hNot hRoom
    simp only [hTaken.limit, hLength] at hRoom
    simp only [hTaken.canWrite]
    apply hFlow.canWrite hNot
    rw [← full_iff hFlow.inv]
    intro hOld
    -- A full queue can only be left alone.
    have hZero : n = 0 := by
      by_contra hSome
      have hYes := hFull hOld (Nat.pos_of_ne_zero hSome)
      exact absurd (hNot.symm.trans hYes) (by simp)
    have hUsage := hFlow.inv.layout.usage_eq
    unfold Full at hOld
    omega
  · intro hNot
    rcases hFlow.unmarked hNot with ⟨hPending, hEos⟩
    rcases hTaken.pending (Or.inr hPending) with ⟨hNew, hNewEos⟩
    exact ⟨hNew.trans hPending, hNewEos.trans hEos⟩
  · intro hMarked hSome
    have hOld : contents ≠ [] := by
      rintro rfl
      exact hSome drop_nil
    rcases hFlow.pending hMarked hOld with ⟨hPending, hEos⟩
    rcases hTaken.pending (Or.inl fun hNone =>
      hSome (length_eq_zero_iff.mp hNone)) with
      ⟨hNew, hNewEos⟩
    exact ⟨hNew.trans hPending, hNewEos.trans hEos⟩
  · intro hMarked hNil
    have hNone : (contents.drop n).length = 0 := length_eq_zero_iff.mpr hNil
    by_cases hOld : contents = []
    · rcases hFlow.reached hMarked hOld with ⟨hPending, hEos⟩
      rcases hTaken.pending (Or.inr hPending) with ⟨hNew, hNewEos⟩
      exact ⟨hNew.trans hPending, hNewEos.trans hEos⟩
    · rcases hFlow.pending hMarked hOld with ⟨hPending, hEos⟩
      exact hTaken.reached hNone hPending hEos

/- After a write -/
theorem Flow.write (hAllowed : InMemory st.pd slice.length)
    (hEos : st.pd.eos = false) (hRoom : st.pd.pendingEos = false →
    NoRoom (alloc 0) st.pd slice.length → Full st.pd) :
    ∃ st' contents', step st (.write slice alloc) = some st' ∧ Flow st' contents' := by
  rcases write_spec alloc hFlow.inv hAllowed with ⟨pd', n, err, hWrite, hInv', hCases⟩
  rcases hCases with ⟨rfl, hPending, hLen, hUpdated⟩ | ⟨hErr, rfl, hRefused, hWhy⟩
  · -- The end is not marked when bytes are taken in.
    have hNot : st.marked = false := by
      by_contra hMarked
      rw [Bool.not_eq_false] at hMarked
      by_cases hNil : contents = []
      · have hYes := (hFlow.reached hMarked hNil).2
        exact absurd (hEos.symm.trans hYes) (by simp)
      · have hYes := (hFlow.pending hMarked hNil).1
        exact absurd (hPending.symm.trans hYes) (by simp)
    have hLength : (contents ++ slice.take n).length = contents.length + n := by
      rw [length_append, length_take, Nat.min_eq_left hLen]
    refine ⟨_, contents ++ slice.take n, step_write hWrite, hInv', ?_, ?_, ?_, ?_, ?_, ?_⟩
    · rw [hUpdated.canRead, hLength]
    · intro _ hLess
      simp only [hUpdated.limit, hLength] at hLess
      simp only [hUpdated.canWrite, hPending, Bool.not_false, Bool.true_and]
      exact decide_eq_true hLess
    · simp only [hFlow.late, hNot, Bool.false_and, Bool.or_false]
    · exact fun _ => ⟨hUpdated.pendingEos.trans hPending, hUpdated.eos.trans hEos⟩
    · exact fun hMarked =>
        absurd (hNot.symm.trans hMarked) (by simp)
    · exact fun hMarked =>
        absurd (hNot.symm.trans hMarked) (by simp)
  · rw [take_zero, append_nil] at hInv'
    have hSome : err.isNone = false := by
      cases err with
      | none => exact absurd rfl hErr
      | some e => rfl
    refine ⟨_, contents, step_write hWrite, hInv', ?_, ?_, ?_, ?_, ?_, ?_⟩
    · rw [hRefused.canRead]
      exact hFlow.canRead
    · intro hNot hLess
      simp only [hRefused.limit] at hLess
      have hPending := (hFlow.unmarked hNot).1
      rcases hWhy with hYes | hNoRoom
      · exact absurd (hPending.symm.trans hYes) (by simp)
      · exact absurd (hRoom hPending hNoRoom) ((full_iff hFlow.inv).mpr hLess)
    · simp only [hFlow.late, hSome, Bool.and_false, Bool.or_false]
    · intro hNot
      rcases hFlow.unmarked hNot with ⟨hPending, hEnd⟩
      exact ⟨hRefused.pendingEos.trans hPending, hRefused.eos.trans hEnd⟩
    · intro hMarked hNil
      rcases hFlow.pending hMarked hNil with ⟨hPending, hEnd⟩
      exact ⟨hRefused.pendingEos.trans hPending, hRefused.eos.trans hEnd⟩
    · intro hMarked hNil
      rcases hFlow.reached hMarked hNil with ⟨hPending, hEnd⟩
      exact ⟨hRefused.pendingEos.trans hPending, hRefused.eos.trans hEnd⟩

end

/- A limit above 0 leaves bytes when there are some. -/
theorem limited_eq_nil {limit : Nat} : limited contents limit = [] ↔ contents = [] := by
  unfold limited
  split
  · rfl
  case isFalse hPos =>
    rw [take_eq_nil_iff]
    exact or_iff_right hPos

section

variable (hFlow : Flow st contents)

include hFlow

/- After a limit was set -/
theorem Flow.limitSet {limit : Nat}
    (hMemory : 0 < limit → limit < st.pd.allocated → alloc 0 ≠ none) :
    ∃ st' contents', step st (.limitSet limit alloc) = some st' ∧ Flow st' contents' := by
  rcases limitSet_spec alloc hFlow.inv hMemory with ⟨pd', hSet, hInv', hCases⟩
  refine ⟨_, limited contents limit, step_limitSet hSet, ?_⟩
  rcases hCases with ⟨rfl, hSame⟩ | hUpdated
  · have hLeft : limited contents limit = contents := by
      unfold limited
      split
      · rfl
      case isFalse hPos =>
        apply take_of_length_le
        rw [← hSame]
        exact hFlow.inv.usage_le (by omega)
    rw [hLeft]
    exact hFlow
  · refine ⟨hInv', hUpdated.canRead, ?_, hFlow.late, ?_, ?_, ?_⟩
    · intro hNot hLess
      have hPending := (hFlow.unmarked hNot).1
      simp only [hUpdated.limit] at hLess
      simp only [hUpdated.canWrite, hPending, Bool.not_false, Bool.true_and]
      exact decide_eq_true hLess
    · intro hNot
      rcases hFlow.unmarked hNot with ⟨hPending, hEos⟩
      exact ⟨hUpdated.pendingEos.trans hPending, hUpdated.eos.trans hEos⟩
    · intro hMarked hSome
      rw [ne_eq, limited_eq_nil] at hSome
      rcases hFlow.pending hMarked hSome with ⟨hPending, hEos⟩
      exact ⟨hUpdated.pendingEos.trans hPending, hUpdated.eos.trans hEos⟩
    · intro hMarked hNil
      rw [limited_eq_nil] at hNil
      rcases hFlow.reached hMarked hNil with ⟨hPending, hEos⟩
      exact ⟨hUpdated.pendingEos.trans hPending, hUpdated.eos.trans hEos⟩

/- After everything was dropped from a queue -/
theorem Flow.clear
    (hFull : Full st.pd → st.marked = true) (out : List Byte) :
    Flow { st with pd := Queue.clear st.pd, out := out } [] := by
  rcases clear_spec hFlow.inv with ⟨hInv', hLimit, hRead, hWrite, hKept, hReached⟩
  refine ⟨hInv', hRead, ?_, hFlow.late, ?_, fun _ hSome => absurd rfl hSome, ?_⟩
  · intro hNot _
    simp only [hWrite]
    apply hFlow.canWrite hNot
    rw [← full_iff hFlow.inv]
    intro hOld
    exact absurd (hNot.symm.trans (hFull hOld)) (by simp)
  · intro hNot
    rcases hFlow.unmarked hNot with ⟨hPending, hEos⟩
    rcases hKept hPending with ⟨hNew, hNewEos⟩
    exact ⟨hNew, hNewEos.trans hEos⟩
  · intro hMarked _
    by_cases hNil : contents = []
    · rcases hFlow.reached hMarked hNil with ⟨hPending, hEos⟩
      rcases hKept hPending with ⟨hNew, hNewEos⟩
      exact ⟨hNew, hNewEos.trans hEos⟩
    · rcases hFlow.pending hMarked hNil with ⟨hPending, hEos⟩
      exact hReached hPending hEos

/- After the end was marked -/
theorem Flow.eosMark :
    Flow { st with pd := Queue.eosMark st.pd, marked := true }
      contents := by
  rcases eosMark_spec hFlow.inv with ⟨hInv', hLimit, hRead, hWrite, hDone, hSome, hNone⟩
  refine ⟨hInv', hRead.trans hFlow.canRead, fun hNot => (nomatch hNot), hFlow.late,
    fun hNot => (nomatch hNot), fun _ hNil => ?_, fun _ hNil => ?_⟩
  · cases hMarked : st.marked with
    | false => exact hSome (hFlow.unmarked hMarked).2 hNil
    | true => exact hSome (hFlow.pending hMarked hNil).2 hNil
  · cases hMarked : st.marked with
    | false => exact hNone (hFlow.unmarked hMarked).2 hNil
    | true =>
      rcases hFlow.reached hMarked hNil with ⟨hPending, hEos⟩
      simp only [hDone hEos]
      exact ⟨hPending, hEos⟩

/- Each call that meets the conditions keeps the flags right. -/
theorem step_flow {op : Op} (hAllowed : Allowed st op) (hSound : Sound st op)
    (hResponsive : Responsive st op) :
    ∃ st' contents', step st op = some st' ∧ Flow st' contents' := by
  have hSlice := sliceGet_spec hFlow.inv
  cases op with
  | write slice alloc =>
    exact hFlow.write hAllowed hResponsive.1 hResponsive.2
  | read len =>
    rcases read_spec hFlow.inv len with ⟨pd', bytes, err, hRead, rfl, hInv', hCases⟩
    refine ⟨_, contents.drop len, step_read hRead, ?_⟩
    rcases hCases with ⟨rfl, rfl⟩ | ⟨-, hTaken⟩
    · rw [drop_nil]
      exact ⟨hFlow.inv, hFlow.canRead, hFlow.canWrite, hFlow.late,
        hFlow.unmarked, hFlow.pending, hFlow.reached⟩
    · exact hFlow.taken hInv' hTaken hResponsive
  | discard amount =>
    rcases discard_spec hFlow.inv amount with ⟨hInv', hCases⟩
    refine ⟨_, contents.drop amount, step_discard amount hSlice, ?_⟩
    rcases hCases with ⟨hSame, rfl⟩ | hTaken
    · rw [hSame, drop_nil]
      exact ⟨hFlow.inv, hFlow.canRead, hFlow.canWrite, hFlow.late,
        hFlow.unmarked, hFlow.pending, hFlow.reached⟩
    · exact hFlow.taken hInv' hTaken hResponsive
  | preallocate size alloc =>
    rcases preallocate_spec alloc hFlow.inv hSound with
      ⟨hInv', hLimit, hPending, hEos, hRead, hWrite⟩
    refine ⟨_, contents, rfl, hInv', hRead.trans hFlow.canRead, ?_, hFlow.late, ?_, ?_, ?_⟩
    · intro hNot hRoom
      simp only [hLimit] at hRoom
      exact hWrite.trans (hFlow.canWrite hNot hRoom)
    · intro hNot
      rcases hFlow.unmarked hNot with ⟨hOld, hOldEos⟩
      exact ⟨hPending.trans hOld, hEos.trans hOldEos⟩
    · intro hMarked hSome
      rcases hFlow.pending hMarked hSome with ⟨hOld, hOldEos⟩
      exact ⟨hPending.trans hOld, hEos.trans hOldEos⟩
    · intro hMarked hNil
      rcases hFlow.reached hMarked hNil with ⟨hOld, hOldEos⟩
      exact ⟨hPending.trans hOld, hEos.trans hOldEos⟩
  | limitSet limit alloc => exact hFlow.limitSet hSound
  | clear => exact ⟨_, [], step_clear hSlice, hFlow.clear hResponsive _⟩
  | eosMark => exact ⟨_, contents, rfl, hFlow.eosMark⟩

end

/-
  In every run whose calls meet the conditions the flags are
  right.
-/
theorem queue_ready {ops : List Op} (hOps : Runs.Guarded step
      (fun st op =>
        Allowed st op ∧ Sound st op ∧ Responsive st op)
      .start ops) :
    ∃ st, Runs.run step .start ops = some st ∧ Ready st := by
  rcases Runs.run_of_guarded (fun st => ∃ contents, Flow st contents)
    (fun st op hInv hOk => by
      rcases hInv with ⟨contents, hFlow⟩
      rcases step_flow hFlow hOk.1 hOk.2.1 hOk.2.2 with
        ⟨st', contents', hStep, hFlow'⟩
      exact ⟨st', hStep, contents', hFlow'⟩)
    ⟨[], inv_new, rfl, fun _ _ => rfl, rfl, fun _ => ⟨rfl, rfl⟩,
      fun hMarked => absurd hMarked Bool.false_ne_true,
      fun hMarked => absurd hMarked Bool.false_ne_true⟩ hOps with
    ⟨st, hRun, contents, hFlow⟩
  exact ⟨st, hRun, hFlow.ready⟩

/- Two bytes below a limit, one of which is read; then the end -/
def readySample : List Op :=
  [.limitSet 4 plenty, .write [1, 2] plenty, .read 1, .eosMark]

theorem queue_ready_sample :
    ∃ st, Runs.run step .start readySample = some st ∧
      Ready st := by
  apply queue_ready
  refine ⟨⟨show 4 < CSize.bound by decide, fun _ _ hNone =>
    (nomatch hNone), trivial⟩, fun st₁ hFirst => ?_⟩
  obtain rfl := some.inj hFirst
  refine ⟨⟨show InMemory _ 2 by decide, trivial, rfl,
    fun _ hNoRoom => ?_⟩, fun st₂ hSecond => ?_⟩
  · rcases hNoRoom with ⟨-, hFull, -⟩ | ⟨hNone, -⟩
    · exact absurd hFull (by decide)
    · exact nomatch hNone
  obtain rfl := some.inj hSecond
  refine ⟨⟨show 1 < CSize.bound by decide, trivial,
    fun hFull => absurd hFull (by decide)⟩, fun st₃ hThird => ?_⟩
  obtain rfl := some.inj hThird
  exact ⟨⟨trivial, trivial, trivial⟩, fun _ _ => trivial⟩

/-
  A byte is read from a full queue, and still it does not say
  that bytes can be written; a queue whose end was marked
  while it was empty takes bytes.
-/
theorem queue_stalls :
    (∃ st, Runs.run step .start [.limitSet 4 plenty, .write [1, 2, 3,
        4] plenty, .read 2] = some st ∧ st.marked = false ∧
        st.pd.limit = 4 ∧ st.pd.usage = 2 ∧ st.pd.canWrite = false) ∧
    ∃ st, Runs.run step .start [.eosMark, .write [1] plenty] =
        some st ∧
      st.late = true ∧ st.pd.eos = true ∧ st.pd.usage = 1 :=
  ⟨⟨_, rfl, by decide, by decide, by decide, by decide⟩,
    _, rfl, by decide, by decide, by decide⟩

end Efl.Io.Queue
