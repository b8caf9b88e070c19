import Efl.Lib.Runs
import Efl.EcoreIpc.Header

/-
  Streams of messages from a sender to a receiver.

  The bytes of any sequence of messages, in chunks of any
  size, give the receiver exactly these messages, as long as
  each encoded head fits in the array `dat` of the sender.

  Main declarations:
    * `EcoreIpc.sendAll`
    * `EcoreIpc.stream`
    * `EcoreIpc.examine_message`
    * `EcoreIpc.redoLoop_receiving`
-/

---
-- The Sender
---

namespace Efl.EcoreIpc

open Bytes
open CInt

/- Send messages one after the other. -/
def sendAll : Head → List Call → Option (Head × List Byte)
  | prevO, [] => some (prevO, [])
  | prevO, c :: cs => do
    let (prevO, message) ← serverSend prevO c
    let (prevO, rest) ← sendAll prevO cs
    some (prevO, message ++ rest)

namespace Call

/- The bytes of the payload. -/
def body (c : Call) : List Byte :=
  c.data.getD []

/- The size is the length of the payload. -/
def Sized (c : Call) : Prop :=
  c.size.toInt = c.body.length

instance (c : Call) : Decidable c.Sized :=
  inferInstanceAs (Decidable (_ = _))

/- The head that the sender remembers. -/
def head (c : Call) : Head :=
  ⟨c.major, c.minor, c.ref, c.refTo, c.response, c.size⟩

/- The event that the receiver should get. -/
def event (c : Call) : Event :=
  ⟨c.major, c.minor, c.ref, c.refTo, c.response, c.size,
    if 0 < c.size.toInt then some c.body else none⟩

/- The bytes of the message. -/
def message (prev : Head) (c : Call) : List Byte :=
  headBytes c.head prev ++ c.body

end Call

/- The head of the last message. -/
def lastHead : Head → List Call → Head
  | prev, [] => prev
  | _, c :: cs => lastHead c.head cs

/- The bytes of a sequence of messages. -/
def stream : Head → List Call → List Byte
  | _, [] => []
  | prev, c :: cs => c.message prev ++ stream c.head cs

/- Every encoded head fits in `dat`. -/
def HeadsFit : Head → List Call → Prop
  | _, [] => True
  | prev, c :: cs =>
    4 + dltSize c.head prev ≤ sizeofHead ∧
      HeadsFit c.head cs

/- Every message fits in a buffer with an `int` for its size. -/
def MessagesFit : Head → List Call → Prop
  | _, [] => True
  | prev, c :: cs =>
    ((c.message prev).length : Int) ≤ intMax ∧
      MessagesFit c.head cs

instance decidableHeadsFit :
    ∀ prev cs, Decidable (HeadsFit prev cs)
  | _, [] => isTrue trivial
  | prev, c :: cs =>
    have := decidableHeadsFit c.head cs
    inferInstanceAs
      (Decidable (4 + dltSize c.head prev ≤ sizeofHead ∧
        HeadsFit c.head cs))

instance decidableMessagesFit :
    ∀ prev cs, Decidable (MessagesFit prev cs)
  | _, [] => isTrue trivial
  | prev, c :: cs =>
    have := decidableMessagesFit c.head cs
    inferInstanceAs
      (Decidable
        (((c.message prev).length : Int) ≤ intMax ∧
          MessagesFit c.head cs))

variable {c : Call}

theorem payload_eq (hSized : c.Sized) : payload c = some c.body := by
  rcases c with ⟨_, _, _, _, _, data, size⟩
  unfold Call.Sized Call.body at hSized
  unfold payload Call.body
  cases data with
  | none => rfl
  | some data =>
    simp only [Option.getD_some] at hSized ⊢
    split
    · have hDrop : data <+: data.drop 0 := by simp
      have hRead := readRange_of_drop hDrop (by rintro rfl; simp_all)
      rw [hSized]
      exact hRead
    · have hNil : data.length = 0 := by omega
      rw [List.eq_nil_of_length_eq_zero hNil]

variable {prev : Head}

/- What one message writes, if its head fits. -/
theorem serverSend_eq (hSized : c.Sized) :
    serverSend prev c =
      if 4 + dltSize c.head prev ≤ sizeofHead then
        some (c.head, c.message prev)
      else
        none := by
  have hSize : ¬ c.size.toInt < 0 := by
    have h : c.size.toInt = c.body.length := hSized
    omega
  unfold serverSend
  simp only [if_neg hSize]
  rw [show (⟨c.major, c.minor, c.ref, c.refTo, c.response, c.size⟩ : Head) = c.head from rfl]
  rcases encodeHead_ifFits c.head prev with ⟨hSome, hFits⟩ | ⟨hNone, hOver⟩
  · rw [if_pos hFits, hSome]
    simp [payload_eq hSized, Call.message]
  · rw [if_neg (by omega), hNone]
    rfl

variable {cs : List Call}

/- A sequence of messages is sent if all heads fit. -/
theorem sendAll_eq_some (hSized : ∀ c ∈ cs, c.Sized)
    (hFits : HeadsFit prev cs) : sendAll prev cs = some (lastHead prev cs, stream prev cs) := by
  induction cs generalizing prev with
  | nil => rfl
  | cons c cs ih =>
    have hRest := ih (fun c' hc => hSized c' (by simp [hc])) hFits.2
    unfold sendAll
    rw [serverSend_eq (hSized c (by simp)), if_pos hFits.1]
    simp [hRest, lastHead, stream]

/- With a head that does not fit, sending faults. -/
theorem headsFit_of_sendAll {last : Head} {bytes : List Byte} (hSized : ∀ c ∈ cs, c.Sized)
    (hSend : sendAll prev cs = some (last, bytes)) : HeadsFit prev cs := by
  induction cs generalizing prev bytes with
  | nil => trivial
  | cons c cs ih =>
    unfold sendAll at hSend
    rw [serverSend_eq (hSized c (by simp))] at hSend
    by_cases hFits : 4 + dltSize c.head prev ≤ sizeofHead
    · rw [if_pos hFits] at hSend
      cases hRest : sendAll c.head cs with
      | none => simp [hRest] at hSend
      | some result =>
        rcases result with ⟨last', rest⟩
        simp [hRest] at hSend
        rcases hSend with ⟨rfl, -⟩
        exact ⟨hFits, ih (fun c' hc => hSized c' (by simp [hc])) hRest⟩
    · rw [if_neg hFits] at hSend
      simp at hSend

---
-- One Message at the Receiver
---

open List Option

/- All allocations succeed. -/
def allocAll : Alloc :=
  fun _ _ => true

/- The message may be as large as it is. -/
def WithinLimit (max : Int) (c : Call) : Prop :=
  max < 0 ∨ c.size.toInt ≤ max

instance (max : Int) (c : Call) : Decidable (WithinLimit max c) :=
  inferInstanceAs (Decidable (_ ∨ _))

theorem Call.length_message (prev : Head) (hSized : c.Sized) :
    ((c.message prev).length : Int) = 4 + dltSize c.head prev + c.size.toInt := by
  rw [hSized]
  simp [message, length_headBytes]

theorem clampSize_head (hSized : c.Sized) : clampSize c.head = c.head := by
  have hSize : ¬ c.size.toInt < 0 := by
    have h : c.size.toInt = c.body.length := hSized
    omega
  unfold clampSize
  rw [show c.head.size = c.size from rfl, if_neg hSize]
  rfl

/- The state after a message. -/
def Conn.take (cl : Conn) (c : Call) : Conn :=
  { cl with
    prevI := c.head
    events := cl.events ++ [c.event] }

variable {cl : Conn} {buf : List Byte}

/- A complete message in the buffer is taken. -/
theorem examine_message {max : Int} {o : Nat}
    (hBuf : (buf.length : Int) ≤ intMax) (hSized : c.Sized)
    (hLimit : WithinLimit max c) (hAlive : cl.deleteMe = false) (hOffset : o ≤ buf.length)
    (hDrop : c.message cl.prevI <+: buf.drop o) :
    examine max allocAll cl buf o =
      some (advance (cl.take c) buf o (c.message cl.prevI).length c.head) := by
  have hLength := c.length_message cl.prevI hSized
  have hAvail := hDrop.length_le
  have hSizeLow : 0 ≤ c.size.toInt := by
    have h : c.size.toInt = c.body.length := hSized
    omega
  have hRoom := hDrop.length_le
  rw [length_drop] at hRoom
  have hHead := (append_prefix_drop hDrop).1
  have hBody := (append_prefix_drop hDrop).2
  rw [length_headBytes] at hBody
  have hWord := (append_prefix_drop hHead).1
  have hFields := (append_prefix_drop hHead).2
  rw [length_be32] at hFields
  have hNeed : wrap (4 + (dltSize c.head cl.prevI : Int) +
        c.head.size.toInt) = ((c.message cl.prevI).length : Int) := by
    rw [show c.head.size = c.size from rfl, ← hLength, wrap_of_inRange]
    unfold intMax at hBuf
    unfold InRange
    omega
  unfold examine
  simp only [wrap_avail hBuf hOffset, read32_of_drop hWord,
    bind_eq_bind, bind_some, headSize_headWord,
    decodeHead_of_drop hFields, clampSize_head hSized, hNeed]
  rw [if_pos (by omega), if_neg (by omega), if_pos (by omega)]
  unfold deliver
  rw [if_pos (show max < 0 ∨ c.head.size.toInt ≤ max from hLimit)]
  have hAdvance : ∀ data, data = c.event.data →
      advance (emit allocAll cl o c.head data) buf o
          (c.message cl.prevI).length c.head = advance (cl.take c) buf o
          (c.message cl.prevI).length c.head := by
    rintro data rfl
    have hEmit : emit allocAll cl o c.head c.event.data =
          { cl with events := cl.events ++ [c.event] } := by
      simp [emit, hAlive, allocAll]
      rfl
    rw [hEmit]
    rfl
  by_cases hEmpty : 0 < c.size.toInt
  · have hNonempty : c.body ≠ [] := by
      intro hNil
      have h : c.size.toInt = c.body.length := hSized
      rw [hNil] at h
      simp at h
      omega
    have hRead := readRange_of_drop hBody hNonempty
    have hAt :
        ((o + (4 + dltSize c.head cl.prevI) : Nat) : Int) =
          (o : Int) + (4 + (dltSize c.head cl.prevI : Int)) := by
      push_cast
      rfl
    rw [hAt, ← hSized] at hRead
    rw [if_pos (show 0 < c.head.size.toInt from hEmpty)]
    simp only [allocAll, if_true, bind_eq_bind]
    rw [show c.head.size = c.size from rfl, hRead, bind_some]
    exact congrArg some (hAdvance (some c.body) (by simp [Call.event, hEmpty]))
  · rw [if_neg (show ¬ 0 < c.head.size.toInt from hEmpty)]
    exact congrArg some (hAdvance none (by simp [Call.event, hEmpty]))

---
-- Part of a Message at the Receiver
---

/- Keep what is left of the buffer. -/
theorem scroll_eq {o : Nat} (hBuf : (buf.length : Int) ≤ intMax)
    (hOffset : o ≤ buf.length) :
    scroll allocAll cl buf o = some (.done { cl with buf := some (buf.drop o) }) := by
  have hRead : readRange buf o ((buf.drop o).length : Int) = some (buf.drop o) := by
    have hLength := length_drop (i := o) (l := buf)
    unfold readRange
    rw [if_pos (by omega), Int.toNat_natCast, Int.toNat_natCast, take_length]
  unfold scroll
  simp only [wrap_avail hBuf hOffset]
  rw [if_pos (by simp [allocAll]), hRead]
  rfl

variable {r : List Byte}

/- An incomplete message stays in the buffer. -/
theorem examine_partial (max : Int) {rest : List Byte} {o : Nat}
    (hHolds : cl.buf = some buf) (hBuf : (buf.length : Int) ≤ intMax)
    (hSized : c.Sized) (hMessage : ((c.message cl.prevI).length : Int) ≤ intMax)
    (hOffset : o ≤ buf.length) (hStream : buf.drop o ++ r = c.message cl.prevI ++ rest)
    (hShort : (buf.drop o).length < (c.message cl.prevI).length) :
    examine max allocAll cl buf o = some (.done { cl with buf := some (buf.drop o) }) := by
  have hLength := c.length_message cl.prevI hSized
  -- What the buffer holds of the message is a prefix of it.
  have hPrefix : ∀ bs, bs <+: c.message cl.prevI →
      bs.length ≤ (buf.drop o).length → bs <+: buf.drop o := by
    intro bs hBytes hFits
    refine prefix_of_prefix_length_le (hBytes.trans (prefix_append _ rest)) ?_ hFits
    rw [← hStream]
    exact prefix_append _ r
  have hHead : headBytes c.head cl.prevI <+: c.message cl.prevI := prefix_append _ _
  unfold examine
  simp only [wrap_avail hBuf hOffset]
  by_cases hWordIn : (4 : Int) ≤ (buf.drop o).length
  · rw [if_pos hWordIn]
    have hWord : be32 (headWord c.head cl.prevI) <+: buf.drop o :=
      hPrefix _ ((prefix_append _ _).trans hHead) (by rw [length_be32]; omega)
    simp only [read32_of_drop hWord, bind_eq_bind, bind_some, headSize_headWord]
    by_cases hHeadIn : ((buf.drop o).length : Int) < 4 + (dltSize c.head cl.prevI : Int)
    · rw [if_pos hHeadIn]
      split
      · exact scroll_eq hBuf hOffset
      · have hZero : o = 0 := by omega
        subst hZero
        rw [drop_zero, ← hHolds]
    · rw [if_neg hHeadIn]
      have hHeadDrop : headBytes c.head cl.prevI <+: buf.drop o :=
        hPrefix _ hHead (by rw [length_headBytes]; omega)
      have hFields := (append_prefix_drop hHeadDrop).2
      rw [length_be32] at hFields
      have hNeed : wrap (4 + (dltSize c.head cl.prevI : Int) +
            c.head.size.toInt) = ((c.message cl.prevI).length : Int) := by
        rw [show c.head.size = c.size from rfl, ← hLength, wrap_of_inRange]
        unfold intMax at hMessage
        unfold InRange
        omega
      simp only [decodeHead_of_drop hFields, clampSize_head hSized, hNeed, bind_some]
      rw [if_neg (by omega)]
      exact scroll_eq hBuf hOffset
  · rw [if_neg hWordIn]
    exact scroll_eq hBuf hOffset

---
-- The Receiver
---

/-
  The receiver between two calls: of the messages `cs`, some
  have arrived, and it holds the beginning of the next one.
  `r` are the bytes that it has not received.
-/
structure Receiving (prev : Head) (cs : List Call) (r : List Byte) (cl : Conn) : Prop where
  alive : cl.deleteMe = false
  parts : ∃ done todo,
    cs = done ++ todo ∧
      cl.events = done.map Call.event ∧
      cl.prevI = lastHead prev done ∧
      cl.buf.getD [] ++ r = stream cl.prevI todo ∧
      ∀ c ∈ todo.head?,
        (cl.buf.getD []).length <
          (c.message cl.prevI).length

theorem lastHead_append (prev : Head) (cs ds : List Call) :
    lastHead prev (cs ++ ds) = lastHead (lastHead prev cs) ds := by
  induction cs generalizing prev with
  | nil => rfl
  | cons c cs ih => exact ih c.head

theorem MessagesFit.of_append {ds : List Call}
    (hFit : MessagesFit prev (cs ++ ds)) : MessagesFit (lastHead prev cs) ds := by
  induction cs generalizing prev with
  | nil => exact hFit
  | cons c cs ih => exact ih hFit.2

/- No message is empty. -/
theorem Call.message_pos (c : Call) (prev : Head) : 0 < (c.message prev).length := by
  rw [message, length_append, length_headBytes]
  omega

/-
  The passes over a buffer take its complete messages and
  keep the rest.
-/
theorem redoLoop_receiving {max : Int} {done todo : List Call}
    (cl : Conn) {o : Nat} (fuel : Nat) (hSized : ∀ c ∈ cs, c.Sized)
    (hLimit : ∀ c ∈ cs, WithinLimit max c) (hFit : MessagesFit prev cs) (hParts : cs = done ++ todo)
    (hAlive : cl.deleteMe = false) (hHolds : cl.buf = some buf)
    (hEvents : cl.events = done.map Call.event) (hPrev : cl.prevI = lastHead prev done)
    (hBuf : (buf.length : Int) ≤ intMax) (hOffset : o ≤ buf.length)
    (hStream : buf.drop o ++ r = stream cl.prevI todo)
    (hFuel : buf.length - o < fuel) :
    ∃ cl', redoLoop max allocAll buf fuel cl o = some cl' ∧
      Receiving prev cs r cl' ∧ cl'.maxBufSize = cl.maxBufSize := by
  induction todo generalizing done cl o fuel with
  | nil =>
    -- Everything has arrived: the buffer was empty.
    cases fuel with
    | zero => omega
    | succ fuel =>
      have hEnd := congrArg List.length hStream
      simp only [stream, length_append, length_drop, length_nil] at hEnd
      have hAvail := wrap_avail hBuf hOffset
      have hExamine : examine max allocAll cl buf o =
          some (.done { cl with buf := some (buf.drop o) }) := by
        unfold examine
        simp only [hAvail, length_drop]
        rw [if_neg (by omega)]
        exact scroll_eq hBuf hOffset
      refine ⟨{ cl with buf := some (buf.drop o) }, ?_,
        ⟨hAlive, done, [], hParts, hEvents, hPrev, ?_, by simp⟩, rfl⟩
      · simp [redoLoop, hExamine]
      · exact hStream
  | cons c todo ih =>
    have hMem : c ∈ cs := by simp [hParts]
    have hMessages : MessagesFit cl.prevI (c :: todo) := by
      rw [hPrev]
      exact (hParts ▸ hFit).of_append
    cases fuel with
    | zero => omega
    | succ fuel =>
      by_cases hShort : (buf.drop o).length < (c.message cl.prevI).length
      · have hExamine := examine_partial max hHolds hBuf
          (hSized c hMem) hMessages.1 hOffset hStream hShort
        refine ⟨{ cl with buf := some (buf.drop o) }, ?_, ⟨hAlive, done,
          c :: todo, hParts, hEvents, hPrev, hStream, ?_⟩, rfl⟩
        · simp [redoLoop, hExamine]
        · intro c' hc
          obtain rfl : c = c' := by simpa using hc
          exact hShort
      · -- The message is complete.
        have hDrop : c.message cl.prevI <+: buf.drop o := by
          refine prefix_of_prefix_length_le (prefix_append _ (stream c.head todo)) ?_ (by omega)
          have hStream' : buf.drop o ++ r = c.message cl.prevI ++ stream c.head todo := hStream
          rw [← hStream']
          exact prefix_append _ r
        have hExamine := examine_message hBuf (hSized c hMem) (hLimit c hMem) hAlive hOffset hDrop
        have hPos := c.message_pos cl.prevI
        rcases hDrop with ⟨rest, hDrop⟩
        have hLength := congrArg List.length hDrop
        simp only [length_append, length_drop] at hLength
        have hRest : rest ++ r = stream c.head todo := by
          rw [← hDrop, append_assoc] at hStream
          exact append_cancel_left hStream
        have hNext : wrap ((o : Int) + (c.message cl.prevI).length) =
            ((o + (c.message cl.prevI).length : Nat) : Int) := by
          unfold intMax at hBuf
          rw [Int.natCast_add, wrap_of_inRange]
          unfold InRange
          omega
        have hRestDrop : buf.drop (o + (c.message cl.prevI).length) =
            rest := by
          rw [← drop_drop, ← hDrop, drop_left]
        have hParts' : cs = (done ++ [c]) ++ todo := by
          simp [hParts]
        have hEvents' : (cl.take c).events = (done ++ [c]).map Call.event := by
          simp [Conn.take, hEvents]
        have hPrev' : (cl.take c).prevI = lastHead prev (done ++ [c]) := by
          rw [lastHead_append]
          rfl
        unfold redoLoop
        rw [hExamine]
        unfold advance
        simp only [hNext, bind_eq_bind, bind_some]
        by_cases hEnd : (buf.length : Int) =
              ((o + (c.message cl.prevI).length : Nat) : Int)
        · rw [if_pos hEnd]
          have hNil : rest = [] := by
            apply eq_nil_of_length_eq_zero
            omega
          rw [hNil, nil_append] at hRest
          refine ⟨_, rfl, ⟨hAlive, done ++ [c], todo, hParts', hEvents', hPrev', ?_, ?_⟩, rfl⟩
          · exact hRest
          · intro c' _
            exact c'.message_pos _
        · rw [if_neg hEnd]
          have hDone := ih { cl.take c with prevI := c.head } fuel
            (o := o + (c.message cl.prevI).length) hParts' hAlive hHolds hEvents' hPrev'
            (by omega) (by rw [hRestDrop]; exact hRest) (by omega)
          exact hDone

/- The size of the grown buffer is an `int`. -/
def SizeFits (cl : Conn) (data : List Byte) : Prop :=
  (((cl.buf.getD []).length + data.length : Nat) : Int) ≤
    intMax

/- One call with a chunk of the stream. -/
theorem dataProcess_receiving {max : Int} {data : List Byte}
    (hSized : ∀ c ∈ cs, c.Sized) (hLimit : ∀ c ∈ cs, WithinLimit max c)
    (hFit : MessagesFit prev cs) (hSize : SizeFits cl data)
    (hInv : Receiving prev cs (data ++ r) cl) :
    ∃ cl', dataProcess max allocAll cl data = some cl' ∧
      Receiving prev cs r cl' ∧ cl'.maxBufSize = cl.maxBufSize := by
  rcases hInv with ⟨hAlive, done, todo, hParts, hEvents, hPrev, hStream, -⟩
  have hAppend : appendData allocAll cl data = some (cl.buf.getD [] ++ data) := by
    unfold appendData
    unfold SizeFits at hSize
    cases hBuf : cl.buf with
    | none => rfl
    | some buf =>
      rw [hBuf, getD_some] at hSize
      have hWrap : wrap ((buf.length : Int) + data.length) = buf.length + data.length := by
        unfold intMax at hSize
        apply wrap_of_inRange
        unfold InRange
        omega
      dsimp only
      rw [hWrap, if_pos]
      · rfl
      · simp only [allocAll, Bool.and_true, decide_eq_true_eq]
        omega
  have hLength : ((cl.buf.getD [] ++ data).length : Int) ≤
      intMax := by
    rw [length_append]
    exact hSize
  rw [← append_assoc] at hStream
  unfold dataProcess
  rw [hAppend]
  exact redoLoop_receiving _ _ (o := 0) hSized hLimit hFit hParts hAlive
    rfl hEvents hPrev hLength (Nat.zero_le _) hStream (by omega)

---
-- Sender and Receiver
---

/- Chunks of a stream, one call each. -/
theorem run_receiving {svrMax max : Int} {chunks : List (List Byte)}
    (hSized : ∀ c ∈ cs, c.Sized) (hMax : clientMax svrMax cl.maxBufSize = max)
    (hLimit : ∀ c ∈ cs, WithinLimit max c) (hFit : MessagesFit prev cs) (hGuarded : Runs.Guarded
      (clientDataProcess svrMax allocAll) SizeFits cl chunks)
    (hInv : Receiving prev cs (chunks.flatten ++ r) cl) :
    ∃ cl',
      Runs.run (clientDataProcess svrMax allocAll) cl chunks =
          some cl' ∧
        Receiving prev cs r cl' := by
  induction chunks generalizing cl with
  | nil => exact ⟨cl, rfl, hInv⟩
  | cons data chunks ih =>
    rw [flatten_cons, append_assoc] at hInv
    rcases dataProcess_receiving hSized hLimit hFit hGuarded.1 hInv with ⟨cl₁, hCall, hInv₁, hSame⟩
    have hStep : clientDataProcess svrMax allocAll cl data = some cl₁ := by
      unfold clientDataProcess
      rw [hMax]
      exact hCall
    rcases ih (by rw [hSame]; exact hMax) (hGuarded.2 cl₁ hStep) hInv₁ with ⟨cl₂, hRun, hDone⟩
    refine ⟨cl₂, ?_, hDone⟩
    rw [Runs.run_cons, hStep]
    exact hRun

/- With nothing left to receive, all messages have arrived. -/
theorem Receiving.complete (hInv : Receiving prev cs [] cl) :
    cl.events = cs.map Call.event ∧ cl.prevI = lastHead prev cs := by
  rcases hInv with ⟨-, done, todo, hParts, hEvents, hPrev, hStream, hShort⟩
  cases todo with
  | nil =>
    rw [append_nil] at hParts
    rw [hParts]
    exact ⟨hEvents, hPrev⟩
  | cons c todo =>
    have hLess := hShort c rfl
    have hLength := congrArg List.length hStream
    simp only [stream, length_append, length_nil] at hLength
    omega

/-
  Messages sent in a row reach the receiver, however their
  bytes are cut into chunks, if and only if every encoded
  head fits in `dat`.
-/
theorem send_receive {svrMax : Int} {cl : Conn} {cs : List Call}
    (hSized : ∀ c ∈ cs, c.Sized) (hLimit : ∀ c ∈ cs,
      WithinLimit (clientMax svrMax cl.maxBufSize) c)
    (hFit : MessagesFit cl.prevI cs) (hEmpty : cl.buf = none)
    (hAlive : cl.deleteMe = false) (hEvents : cl.events = []) :
    (∃ last bytes, sendAll cl.prevI cs = some (last, bytes) ∧ ∀ chunks :
      List (List Byte), chunks.flatten = bytes → Runs.Guarded
      (clientDataProcess svrMax allocAll) SizeFits cl chunks → ∃ cl',
      Runs.run (clientDataProcess svrMax allocAll) cl chunks =
      some cl' ∧ cl'.events = cs.map Call.event ∧ cl'.prevI = last) ↔
      HeadsFit cl.prevI cs := by
  constructor
  · rintro ⟨last, bytes, hSend, -⟩
    exact headsFit_of_sendAll hSized hSend
  · intro hHeads
    refine ⟨_, _, sendAll_eq_some hSized hHeads, ?_⟩
    intro chunks hChunks hGuarded
    have hStart :
        Receiving cl.prevI cs (chunks.flatten ++ []) cl := by
      refine ⟨hAlive, [], cs, rfl, hEvents, rfl, ?_, ?_⟩
      · rw [hEmpty, hChunks]
        simp
      · intro c _
        rw [hEmpty]
        exact c.message_pos _
    rcases run_receiving hSized rfl hLimit hFit hGuarded
      hStart with ⟨cl', hRun, hDone⟩
    exact ⟨cl', hRun, hDone.complete⟩

/- A head of zeros, as both sides start with. -/
def zeroHead : Head :=
  ⟨0, 0, 0, 0, 0, 0⟩

/- A new client without a limit. -/
def newClient : Conn where
  buf := none
  maxBufSize := -1
  prevI := zeroHead
  deleteMe := false
  events := []

/- Two messages, the second without a payload. -/
def sampleCalls : List Call :=
  [⟨1, 2, 300, 400, -1, some [7, 8, 9], 3⟩,
    ⟨1, 70000, 300, 401, 0, none, 0⟩]

theorem send_receive_sample :
    ∃ last bytes,
      sendAll newClient.prevI sampleCalls =
          some (last, bytes) ∧
        ∀ chunks : List (List Byte),
          chunks.flatten = bytes →
          Runs.Guarded (clientDataProcess (-1) allocAll)
            SizeFits newClient chunks →
          ∃ cl',
            Runs.run (clientDataProcess (-1) allocAll)
                newClient chunks = some cl' ∧
              cl'.events = sampleCalls.map Call.event ∧
              cl'.prevI = last := by
  have hSized : ∀ c ∈ sampleCalls, c.Sized := by decide
  have hLimit : ∀ c ∈ sampleCalls,
      WithinLimit (clientMax (-1) newClient.maxBufSize)
        c := by
    decide
  exact (send_receive hSized hLimit (by decide) rfl rfl
    rfl).mpr (by decide)

/-
  Five fields of four bytes and one of one byte: together
  with the modes, one byte more than `dat` has.
-/
def wideCall : Call :=
  ⟨0x12345678, 0x12345678, 0x12345678, 0x12345678,
    0x12345678, some [0], 1⟩

theorem server_send_overrun :
    wideCall.Sized ∧ MessagesFit newClient.prevI [wideCall] ∧
      WithinLimit (clientMax (-1) newClient.maxBufSize) wideCall ∧
      sendAll newClient.prevI [wideCall] = none :=
  ⟨by decide, by decide, by decide, by decide⟩

end Efl.EcoreIpc
