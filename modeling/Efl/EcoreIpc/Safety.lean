import Efl.Lib.Runs
import Efl.EcoreIpc.Header

/-
  Bytes from a peer that need not follow the protocol.

  A call is safe when it reads inside the buffer only, its
  offset stays between its old value and the buffer size, and
  it ends.  Calls are safe as long as no message that the
  bytes announce is longer than `INT_MAX`.

  Main declarations:
    * `EcoreIpc.SafeFrom` and `EcoreIpc.SafeCall`
    * `EcoreIpc.Meets`
    * `EcoreIpc.examine_safe`
    * `EcoreIpc.safeFrom_of_sizesFit`
-/

---
-- Safe Calls
---

namespace Efl.EcoreIpc

open Bytes List Option
open CInt

/-
  The passes that begin at an offset do not fault, do not
  move the offset back or behind the buffer, and end.
-/
inductive SafeFrom (max : Int) (alloc : Alloc) (buf : List Byte) : Conn → Int → Prop where
  | done {c c' : Conn} {offset : Int}
      (hPass : examine max alloc c buf offset =
        some (.done c')) :
      SafeFrom max alloc buf c offset
  | redo {c c' : Conn} {offset offset' : Int}
      (hPass : examine max alloc c buf offset =
        some (.redo c' offset'))
      (hForward : offset ≤ offset')
      (hInside : offset' ≤ buf.length)
      (hRest : SafeFrom max alloc buf c' offset') :
      SafeFrom max alloc buf c offset

/- A call with a chunk of data is safe. -/
def SafeCall (max : Int) (alloc : Alloc) (c : Conn) (data : List Byte) : Prop :=
  ∀ buf, appendData alloc c data = some buf →
    SafeFrom max alloc buf { c with buf := some buf } 0

/-
  Taking messages off the front of `bytes`, with arithmetic
  that does not wrap, the head `msg` of `s` bytes is met.
-/
inductive Meets : Head → List Byte → Head → Int → Prop where
  | here {prev msg : Head} {bytes : List Byte}
      {head : Word} {s : Int}
      (hWord : read32 bytes 0 = some head)
      (hHead : decodeHead bytes 0 head prev = some (msg, s)) :
      Meets prev bytes (clampSize msg) s
  | next {prev msg msg' : Head} {bytes : List Byte}
      {head : Word} {s s' : Int}
      (hWord : read32 bytes 0 = some head)
      (hHead : decodeHead bytes 0 head prev = some (msg, s))
      (hInside :
        s + (clampSize msg).size.toInt ≤ bytes.length)
      (hRest : Meets (clampSize msg)
        (bytes.drop (s + (clampSize msg).size.toInt).toNat)
        msg' s') :
      Meets prev bytes msg' s'

/- No message that is met is longer than `INT_MAX`. -/
def SizesFit (prev : Head) (bytes : List Byte) : Prop :=
  ∀ msg s, Meets prev bytes msg s →
    s + msg.size.toInt ≤ intMax

variable {bytes : List Byte}

variable {prev : Head}

/- Without a whole head nothing is met. -/
theorem sizesFit_of_short (hShort : read32 bytes 0 = none) : SizesFit prev bytes := by
  intro msg s hMeets
  cases hMeets with
  | here hWord => simp [hShort] at hWord
  | next hWord => simp [hShort] at hWord

variable {msg : Head} {head : Word} {s : Int}

/- The first message, and the ones behind it. -/
theorem sizesFit_of_first (hWord : read32 bytes 0 = some head)
    (hHead : decodeHead bytes 0 head prev = some (msg, s))
    (hSize : s + (clampSize msg).size.toInt ≤ intMax) (hRest : SizesFit (clampSize
    msg) (bytes.drop (s + (clampSize msg).size.toInt).toNat)) : SizesFit prev bytes := by
  intro msg' s' hMeets
  cases hMeets with
  | here hWord' hHead' =>
    rw [hWord] at hWord'
    obtain rfl := some.inj hWord'
    rw [hHead] at hHead'
    injection hHead' with hPair
    injection hPair with hMsg hEnd
    subst hMsg
    subst hEnd
    exact hSize
  | next hWord' hHead' hInside hMeets' =>
    rw [hWord] at hWord'
    obtain rfl := some.inj hWord'
    rw [hHead] at hHead'
    injection hHead' with hPair
    injection hPair with hMsg hEnd
    subst hMsg
    subst hEnd
    exact hRest _ _ hMeets'

theorem SizesFit.next (hFit : SizesFit prev bytes) (hWord : read32 bytes 0 = some head)
    (hHead : decodeHead bytes 0 head prev = some (msg, s))
    (hInside : s + (clampSize msg).size.toInt ≤ bytes.length) :
    SizesFit (clampSize msg) (bytes.drop (s + (clampSize msg).size.toInt).toNat) := by
  intro msg' s' hMeets
  exact hFit msg' s' (.next hWord hHead hInside hMeets)

---
-- Reads behind an Offset
---

variable {i : Int}

theorem readAt_drop (buf : List Byte) (o : Nat) (hIndex : 0 ≤ i) :
    readAt (buf.drop o) i = readAt buf (o + i) := by
  unfold readAt
  rw [if_neg (by omega), if_neg (by omega), getElem?_drop]
  congr 1
  omega

theorem read32_drop (buf : List Byte) (o : Nat) (hIndex : 0 ≤ i) :
    read32 (buf.drop o) i = read32 buf (o + i) := by
  unfold read32
  rw [readAt_drop buf o hIndex, readAt_drop buf o (by omega),
    readAt_drop buf o (by omega), readAt_drop buf o (by omega)]
  simp only [Int.add_assoc]

theorem read16_drop (buf : List Byte) (o : Nat) (hIndex : 0 ≤ i) :
    read16 (buf.drop o) i = read16 buf (o + i) := by
  unfold read16
  rw [readAt_drop buf o hIndex, readAt_drop buf o (by omega)]
  simp only [Int.add_assoc]

variable {d : Word}

theorem clDec_drop (buf : List Byte) (o : Nat) {md : Dlt}
    {prev : Word} (hIndex : 0 ≤ s) :
    clDec (buf.drop o) 0 md prev s d = clDec buf o md prev s d := by
  unfold clDec
  rw [Int.zero_add, read32_drop buf o hIndex, read16_drop buf o hIndex, readAt_drop buf o hIndex]

variable {buf : List Byte}

/- A field ends where its bytes end. -/
theorem clDec_end {offset s' : Int} {md : Dlt} {prev v d' : Word}
    (hField : clDec buf offset md prev s d = some (v, s', d')) : s' = s + md.width := by
  unfold clDec at hField
  unfold Dlt.width
  split at hField
  · rename_i hSet
    rw [if_pos hSet]
    simp only [bind_eq_bind, bind_eq_some_iff] at hField
    rcases hField with ⟨w, -, hPair⟩
    simp only [Option.some.injEq, Prod.mk.injEq] at hPair
    rcases hPair with ⟨p, rfl, -, hEnd, -⟩
    exact hEnd.symm
  · rename_i hSet
    rw [if_neg hSet]
    split at hField
    · rename_i hAdd
      rw [if_pos hAdd]
      simp only [bind_eq_bind, bind_eq_some_iff] at hField
      rcases hField with ⟨w, -, hPair⟩
      simp only [Option.some.injEq, Prod.mk.injEq] at hPair
      rcases hPair with ⟨p, rfl, -, hEnd, -⟩
      exact hEnd.symm
    · rename_i hAdd
      rw [if_neg hAdd]
      split at hField
      · rename_i hByte
        rw [if_pos hByte]
        simp only [bind_eq_bind, bind_eq_some_iff] at hField
        rcases hField with ⟨w, -, hPair⟩
        simp only [Option.some.injEq, Prod.mk.injEq] at hPair
        rcases hPair with ⟨p, rfl, -, hEnd, -⟩
        exact hEnd.symm
      · rename_i hByte
        rw [if_neg hByte]
        simp only [bind_eq_bind, bind_some, Option.some.injEq, Prod.mk.injEq] at hField
        simpa using hField.2.1.symm

/- One field of a head, and what follows it. -/
theorem clDec_bind_drop {α : Type} (buf : List Byte) (o : Nat)
    {md : Dlt} {prev : Word} {k k' : Word × Int × Word → Option α} (hIndex : 0 ≤ s)
    (hNext : ∀ v s' d', 0 ≤ s' → k (v, s', d') = k' (v, s', d')) :
    (clDec (buf.drop o) 0 md prev s d >>= k) = (clDec buf o md prev s d >>= k') := by
  rw [clDec_drop buf o hIndex]
  cases hField : clDec buf o md prev s d with
  | none => rfl
  | some field =>
    rcases field with ⟨v, s', d'⟩
    have hEnd := clDec_end hField
    exact hNext v s' d' (by omega)

/- The head at an offset of a buffer. -/
theorem decodeHead_drop
    (buf : List Byte) (o : Nat) (head : Word) (prev : Head) :
    decodeHead (buf.drop o) 0 head prev = decodeHead buf o head prev := by
  unfold decodeHead
  refine clDec_bind_drop buf o (by decide) ?_
  intro v₀ s₀ d₀ h₀
  refine clDec_bind_drop buf o h₀ ?_
  intro v₁ s₁ d₁ h₁
  refine clDec_bind_drop buf o h₁ ?_
  intro v₂ s₂ d₂ h₂
  refine clDec_bind_drop buf o h₂ ?_
  intro v₃ s₃ d₃ h₃
  refine clDec_bind_drop buf o h₃ ?_
  intro v₄ s₄ d₄ h₄
  refine clDec_bind_drop buf o h₄ ?_
  intro v₅ s₅ d₅ h₅
  rfl

---
-- Safety
---

theorem clampSize_nonneg (msg : Head) : 0 ≤ (clampSize msg).size.toInt := by
  unfold clampSize
  dsimp only
  split
  · decide
  · omega

theorem size_le (msg : Head) : msg.size.toInt ≤ intMax := by
  have h := BitVec.toInt_lt (x := msg.size)
  unfold intMax
  omega

theorem headSize_pos (head : Word) : 4 ≤ headSize head := by
  unfold headSize
  omega

/- A buffer whose size is an `int`. -/
def IntSized (bytes : List Byte) : Prop :=
  (bytes.length : Int) ≤ intMax

instance (bytes : List Byte) : Decidable (IntSized bytes) :=
  inferInstanceAs (Decidable (_ ≤ _))

variable {c : Conn}

/-
  One pass does not fault.  It leaves a buffer that is no
  longer than before, or goes on behind a message.
-/
theorem examine_safe (max : Int) (alloc : Alloc) {o : Nat}
    (hHolds : c.buf = some buf) (hBuf : IntSized buf)
    (hOffset : o ≤ buf.length) (hFit : SizesFit c.prevI (buf.drop o)) :
    (∃ c', examine max alloc c buf o = some (.done c') ∧
      IntSized (c'.buf.getD [])) ∨
    (∃ c' k, examine max alloc c buf o =
        some (.redo c' ((o + k : Nat) : Int)) ∧
      0 < k ∧ o + k ≤ buf.length ∧ c'.buf = some buf ∧ SizesFit c'.prevI (buf.drop (o + k))) := by
  have hSize : wrap ((buf.length : Int) - o) =
      (buf.drop o).length := wrap_avail hBuf hOffset
  have hLength := length_drop (i := o) (l := buf)
  -- Keeping the rest of the buffer is safe.
  have hScroll : ∃ c', scroll alloc c buf o = some (.done c') ∧ IntSized (c'.buf.getD []) := by
    unfold scroll
    simp only [hSize]
    split
    · rcases readRange_isSome buf o (buf.drop o).length (by omega)
          (by omega) (by omega) with ⟨bs, hRead⟩
      refine ⟨{ c with buf := some bs }, by rw [hRead]; rfl, ?_⟩
      unfold readRange at hRead
      split at hRead
      · obtain rfl := some.inj hRead
        unfold IntSized intMax at hBuf ⊢
        simp only [getD_some, length_take, length_drop]
        omega
      · simp at hRead
    · exact ⟨{ c with buf := none }, rfl, by
        simp [IntSized, intMax]⟩
  unfold examine
  simp only [hSize]
  by_cases hWordIn : (4 : Int) ≤ (buf.drop o).length
  swap
  · rw [if_neg hWordIn]
    exact Or.inl hScroll
  rw [if_pos hWordIn]
  rcases read32_isSome buf o (by omega) (by omega) with ⟨head, hWord⟩
  simp only [hWord, bind_eq_bind, bind_some]
  by_cases hHeadIn : ((buf.drop o).length : Int) < headSize head
  · rw [if_pos hHeadIn]
    left
    split
    · exact hScroll
    · exact ⟨c, rfl, by rw [hHolds]; exact hBuf⟩
  rw [if_neg hHeadIn]
  rcases decodeHead_isSome buf o head c.prevI (by omega) (by omega) with ⟨msg, hHead⟩
  have hWordDrop : read32 (buf.drop o) 0 = some head := by
    rw [read32_drop buf o (by decide), Int.add_zero]
    exact hWord
  have hHeadDrop : decodeHead (buf.drop o) 0 head c.prevI = some (msg, headSize head) := by
    rw [decodeHead_drop]
    exact hHead
  have hSum := hFit _ _ (.here hWordDrop hHeadDrop)
  have hNonneg := clampSize_nonneg msg
  have hPos := headSize_pos head
  have hNeed :
      wrap (headSize head + (clampSize msg).size.toInt) =
        headSize head + (clampSize msg).size.toInt := by
    unfold intMax at hSum
    apply wrap_of_inRange
    unfold InRange
    omega
  simp only [hHead, bind_some, hNeed]
  by_cases hInside :
      headSize head + (clampSize msg).size.toInt ≤ ((buf.drop o).length : Int)
  swap
  · rw [if_neg hInside]
    exact Or.inl hScroll
  rw [if_pos hInside]
  have hRest := hFit.next hWordDrop hHeadDrop hInside
  generalize clampSize msg = msg at hRest hInside hNonneg
  -- Both ends of a delivered message are safe.
  have hAdvance : ∀ c', c'.buf = some buf → (∃ c'',
      some (advance c' buf o (headSize head + msg.size.toInt) msg) =
          some (.done c'') ∧
        IntSized (c''.buf.getD [])) ∨
      (∃ c'' k, some (advance c' buf o
            (headSize head + msg.size.toInt) msg) =
          some (.redo c'' ((o + k : Nat) : Int)) ∧
        0 < k ∧ o + k ≤ buf.length ∧ c''.buf = some buf ∧
        SizesFit c''.prevI (buf.drop (o + k))) := by
    intro c' hHolds'
    have hNext : wrap (o + (headSize head + msg.size.toInt)) =
          ((o + (headSize head + msg.size.toInt).toNat : Nat) : Int) := by
      unfold IntSized intMax at hBuf
      rw [wrap_of_inRange]
      · omega
      · unfold InRange
        omega
    unfold advance
    simp only [hNext]
    split
    · exact Or.inl ⟨_, rfl, by simp [IntSized, intMax]⟩
    · right
      refine ⟨_, (headSize head + msg.size.toInt).toNat,
        rfl, by omega, by omega, hHolds', ?_⟩
      rw [← drop_drop]
      exact hRest
  have hEmit : ∀ data, (emit alloc c o msg data).buf = some buf := by
    intro data
    unfold emit
    split <;> exact hHolds
  unfold deliver
  split
  · split
    · split
      · rcases readRange_isSome buf (o + headSize head)
            msg.size.toInt (by omega) hNonneg (by omega) with ⟨data, hRead⟩
        simp only [hRead, bind_eq_bind, bind_some]
        exact hAdvance _ (hEmit _)
      · exact Or.inl ⟨c, rfl, by rw [hHolds]; exact hBuf⟩
    · exact hAdvance _ (hEmit _)
  · exact hAdvance _ hHolds

/- The passes over a buffer are safe and end. -/
theorem safeFrom_of_sizesFit (max : Int) (alloc : Alloc) (fuel : Nat)
    {o : Nat} (hHolds : c.buf = some buf) (hBuf : IntSized buf)
    (hOffset : o ≤ buf.length) (hFit : SizesFit c.prevI (buf.drop o))
    (hFuel : buf.length - o < fuel) :
    SafeFrom max alloc buf c o ∧
      ∃ c', redoLoop max alloc buf fuel c o = some c' ∧ IntSized (c'.buf.getD []) := by
  induction fuel generalizing c o with
  | zero => omega
  | succ fuel ih =>
    rcases examine_safe max alloc hHolds hBuf hOffset hFit with ⟨c',
      hPass, hDone⟩ | ⟨c', k, hPass, hPos, hInside, hHolds', hFit'⟩
    · exact ⟨.done hPass, c', by simp [redoLoop, hPass], hDone⟩
    · rcases ih hHolds' hInside hFit' (by omega) with ⟨hSafe, c'', hLoop, hDone⟩
      refine ⟨.redo hPass (by omega) (by omega) hSafe, c'', ?_, hDone⟩
      simp only [redoLoop, hPass, bind_eq_bind, bind_some]
      exact hLoop

/- A chunk of data, as the size argument can tell it. -/
def Chunk (x : Alloc × List Byte) : Prop :=
  IntSized x.2

instance (x : Alloc × List Byte) : Decidable (Chunk x) :=
  inferInstanceAs (Decidable (IntSized x.2))

/- No message that a call meets is longer than `INT_MAX`. -/
def CallFits (c : Conn) (x : Alloc × List Byte) : Prop :=
  SizesFit c.prevI (c.buf.getD [] ++ x.2)

/- A call is safe, and returns. -/
theorem dataProcess_safe (max : Int) {x : Alloc × List Byte}
    (hBuf : IntSized (c.buf.getD [])) (hChunk : Chunk x)
    (hFit : CallFits c x) :
    SafeCall max x.1 c x.2 ∧
      ∃ c', dataProcess max x.1 c x.2 = some c' ∧ IntSized (c'.buf.getD []) := by
  rcases x with ⟨alloc, data⟩
  unfold SafeCall dataProcess
  cases hAppend : appendData alloc c data with
  | none => refine ⟨by simp, _, rfl, by simp [IntSized, intMax]⟩
  | some buf =>
    have hJoin : buf = c.buf.getD [] ++ data ∧ IntSized buf := by
      unfold appendData at hAppend
      have hData : IntSized data := hChunk
      cases hOld : c.buf with
      | none =>
        rw [hOld] at hAppend
        obtain rfl := some.inj hAppend
        exact ⟨rfl, hData⟩
      | some old =>
        rw [hOld] at hAppend hBuf
        dsimp only at hAppend
        simp only [getD_some] at hBuf ⊢
        split at hAppend
        · rename_i hGrown
          obtain rfl := some.inj hAppend
          refine ⟨rfl, ?_⟩
          rw [Bool.and_eq_true, decide_eq_true_eq] at hGrown
          unfold IntSized intMax at *
          have hSum := hGrown.1
          unfold wrap at hSum
          rw [length_append]
          omega
        · simp at hAppend
    have hStart : SizesFit c.prevI (buf.drop 0) := by
      rw [drop_zero, hJoin.1]
      exact hFit
    rcases safeFrom_of_sizesFit max alloc (buf.length + 1) (c := { c with buf := some buf })
        (o := 0) rfl hJoin.2 (Nat.zero_le _) hStart (by omega) with ⟨hSafe, hCall⟩
    refine ⟨?_, hCall⟩
    intro buf' hSome
    obtain rfl := some.inj hSome
    exact hSafe

/- One call on the side of a dialer. -/
def serverStep (svr : Conn) (x : Alloc × List Byte) : Option Conn :=
  serverDataProcess x.1 svr x.2

/- One call on the side of a server, for a client. -/
def clientStep (svrMax : Int) (cl : Conn) (x : Alloc × List Byte) : Option Conn :=
  clientDataProcess svrMax x.1 cl x.2

variable {step : Conn → Alloc × List Byte → Option Conn}

/- Runs of calls of which each one is safe when it fits. -/
theorem guarded_safe {max : Conn → Int} (hStep : ∀ c x, step c x = dataProcess (max c) x.1 c x.2)
    {chunks : List (Alloc × List Byte)} (hBuf : IntSized (c.buf.getD []))
    (hChunks : ∀ x ∈ chunks, Chunk x)
    (hGuarded : Runs.Guarded step CallFits c chunks) :
    Runs.Guarded step (fun c x => SafeCall (max c) x.1 c x.2) c chunks ∧
        ∃ c', Runs.run step c chunks = some c' := by
  induction chunks generalizing c with
  | nil => exact ⟨trivial, c, rfl⟩
  | cons x chunks ih =>
    rcases dataProcess_safe (max c) hBuf (hChunks x (by simp)) hGuarded.1 with
      ⟨hSafe, c₁, hCall, hBuf₁⟩
    rw [← hStep] at hCall
    rcases ih hBuf₁ (fun y hy => hChunks y (by simp [hy]))
        (hGuarded.2 c₁ hCall) with ⟨hRest, c₂, hRun⟩
    refine ⟨⟨hSafe, fun c' hNext => ?_⟩, c₂, ?_⟩
    · rw [hCall] at hNext
      rw [← some.inj hNext]
      exact hRest
    · rw [Runs.run_cons, hCall]
      exact hRun

/-
  Whatever bytes arrive, in whatever chunks, whatever limits
  are set and whichever allocations fail: as long as no
  message that they announce is longer than `INT_MAX`, every
  call of either side is safe.
-/
theorem data_process_safe (svrMax : Int) {c : Conn}
    {chunks : List (Alloc × List Byte)}
    (hBuf : IntSized (c.buf.getD []))
    (hChunks : ∀ x ∈ chunks, Chunk x) :
    (Runs.Guarded serverStep CallFits c chunks →
      Runs.Guarded serverStep (fun svr x =>
            SafeCall svr.maxBufSize x.1 svr x.2) c chunks ∧
        ∃ c', Runs.run serverStep c chunks = some c') ∧
    (Runs.Guarded (clientStep svrMax) CallFits c chunks →
      Runs.Guarded (clientStep svrMax) (fun cl x =>
            SafeCall (clientMax svrMax cl.maxBufSize)
              x.1 cl x.2) c chunks ∧
        ∃ c', Runs.run (clientStep svrMax) c chunks =
          some c') :=
  ⟨guarded_safe (fun _ _ => rfl) hBuf hChunks,
    guarded_safe (fun _ _ => rfl) hBuf hChunks⟩

/-
  The other way round: a longer message that is announced at
  an offset makes the pass unsafe, unless the allocation for
  its payload fails.
-/
theorem not_safeFrom_of_overflow {max : Int} {alloc : Alloc} {o : Nat}
    (hBuf : IntSized buf) (hWord : read32 buf o = some head)
    (hInside : (o : Int) + headSize head ≤ buf.length)
    (hHead : decodeHead buf o head c.prevI = some (msg, headSize head))
    (hOver : intMax < headSize head + (clampSize msg).size.toInt)
    (hAlloc : alloc .payload o = true) : ¬ SafeFrom max alloc buf c o := by
  have hPos := headSize_pos head
  have hWidths : headSize head ≤ 28 := by
    unfold headSize
    have hWidth := fun n => (modeOf head n).width_le
    have h₀ := hWidth 0
    have h₁ := hWidth 1
    have h₂ := hWidth 2
    have h₃ := hWidth 3
    have h₄ := hWidth 4
    have h₅ := hWidth 5
    omega
  have hSize : (clampSize msg).size.toInt ≤ intMax := size_le _
  have hAvail : wrap ((buf.length : Int) - o) = buf.length - o := by
    unfold IntSized intMax at hBuf
    apply wrap_of_inRange
    unfold InRange
    omega
  have hNeed :
      wrap (headSize head + (clampSize msg).size.toInt) =
        headSize head + (clampSize msg).size.toInt -
          4294967296 := by
    apply wrap_of_gt hOver
    unfold intMax at hSize ⊢
    omega
  have hBack : wrap (o + (headSize head + (clampSize msg).size.toInt - 4294967296)) < o := by
    unfold IntSized intMax at hBuf
    unfold intMax at hSize hOver
    rw [wrap_of_inRange]
    · omega
    · unfold InRange
      omega
  have hExamine : examine max alloc c buf o =
        deliver max alloc c buf o (headSize head) (headSize head +
        (clampSize msg).size.toInt - 4294967296) (clampSize msg) := by
    unfold examine
    unfold IntSized intMax at hBuf
    unfold intMax at hSize
    simp only [hAvail, hWord, hHead, hNeed, bind_eq_bind, bind_some]
    rw [if_pos (by omega), if_neg (by omega), if_pos (by omega)]
  have hPositive : 0 < (clampSize msg).size.toInt := by
    unfold intMax at hOver
    omega
  -- Either the payload is read behind the buffer, or the
  -- offset moves back.
  intro hSafe
  have hPass : examine max alloc c buf o = none ∨
        ∃ c' o', examine max alloc c buf o = some (.redo c' o') ∧ o' < o := by
    rw [hExamine]
    unfold deliver
    by_cases hLimit : max < 0 ∨ (clampSize msg).size.toInt ≤ max
    · left
      rw [if_pos hLimit, if_pos hPositive, if_pos hAlloc]
      have hRead : readRange buf (o + headSize head) (clampSize msg).size.toInt = none := by
        unfold readRange
        unfold IntSized at hBuf
        rw [if_neg (by omega)]
      simp [hRead]
    · right
      rw [if_neg hLimit]
      unfold advance
      refine ⟨_, _, congrArg some (if_neg ?_), hBack⟩
      omega
  rcases hPass with hNone | ⟨c', o', hRedo, hLess⟩
  · cases hSafe with
    | done h => simp [hNone] at h
    | redo h => simp [hNone] at h
  · cases hSafe with
    | done h => simp [hRedo] at h
    | redo h hForward =>
      rw [hRedo] at h
      injection h with h
      injection h with h₁ h₂
      omega

/- A connection that limits nothing, as of a dialer. -/
def openConn : Conn where
  buf := none
  maxBufSize := -1
  prevI := ⟨0, 0, 0, 0, 0, 0⟩
  deleteMe := false
  events := []

/- All allocations succeed. -/
def allocEvery : Alloc :=
  fun _ _ => true

/- A message with two bytes of payload, in two chunks. -/
def sampleChunks : List (Alloc × List Byte) :=
  [(allocEvery, [0x00, 0x50, 0x00]),
    (allocEvery, [0x00, 0x02, 0xaa, 0xbb])]

/- The sample meets one message, of seven bytes. -/
theorem guarded_sampleChunks (hFirst :
      step openConn (allocEvery, [0x00, 0x50, 0x00]) =
        some { openConn with
          buf := some [0x00, 0x50, 0x00] }) : Runs.Guarded step CallFits openConn sampleChunks := by
  refine ⟨sizesFit_of_short (by decide), ?_⟩
  intro c hNext
  rw [hFirst] at hNext
  obtain rfl := some.inj hNext
  refine ⟨?_, fun _ _ => trivial⟩
  have hHead : decodeHead ([0x00, 0x50, 0x00] ++ [0x00, 0x02, 0xaa, 0xbb]) 0 0x00500000
      openConn.prevI = some (⟨0, 0, 0, 0, 0, 2⟩, 5) := by
    decide
  exact sizesFit_of_first (by decide) hHead (by decide) (sizesFit_of_short (by decide))

theorem data_process_safe_sample :
    (Runs.Guarded serverStep (fun svr x =>
          SafeCall svr.maxBufSize x.1 svr x.2)
        openConn sampleChunks ∧
      ∃ c', Runs.run serverStep openConn sampleChunks =
        some c') ∧
    (Runs.Guarded (clientStep (-1)) (fun cl x =>
          SafeCall (clientMax (-1) cl.maxBufSize) x.1 cl x.2)
        openConn sampleChunks ∧
      ∃ c', Runs.run (clientStep (-1)) openConn
        sampleChunks = some c') := by
  have hBuf : IntSized (openConn.buf.getD []) := by decide
  have hChunks : ∀ x ∈ sampleChunks, Chunk x := by decide
  have hSafe := data_process_safe (-1) hBuf hChunks
  exact ⟨hSafe.1 (guarded_sampleChunks rfl),
    hSafe.2 (guarded_sampleChunks rfl)⟩

/- Eight bytes that announce `INT_MAX` bytes of payload. -/
def overflowBytes : List Byte :=
  [0x00, 0xd0, 0x00, 0x00, 0x7f, 0xff, 0xff, 0xff]

/-
  Without a limit, the payload is copied from behind the
  buffer; with a limit, the offset becomes negative.
-/
theorem data_process_overflow :
    serverDataProcess allocEvery openConn overflowBytes = none ∧
        clientDataProcess (-1) allocEvery openConn overflowBytes =
        none ∧ ¬ SafeCall (-1) allocEvery openConn overflowBytes ∧
        ¬ SafeCall 65536 allocEvery openConn
        overflowBytes := by
  have hUnsafe : ∀ max,
      ¬ SafeCall max allocEvery openConn overflowBytes := by
    intro max hSafe
    have hHead : decodeHead overflowBytes 0 0x00d00000 openConn.prevI =
          some (⟨0, 0, 0, 0, 0, 0x7fffffff⟩, 8) := by
      decide
    exact not_safeFrom_of_overflow (o := 0)
      (c := { openConn with buf := some overflowBytes })
      (by decide) (by decide) (by decide) hHead (by decide)
      rfl (hSafe overflowBytes rfl)
  exact ⟨by decide, by decide, hUnsafe (-1), hUnsafe 65536⟩

end Efl.EcoreIpc
