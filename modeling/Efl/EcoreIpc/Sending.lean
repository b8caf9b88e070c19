import Efl.EcoreIpc.Stream

/-
  Sending to a writer that may refuse.

  A writer takes some of the bytes it is given, or there is an
  error and it takes none of them.

  Main declarations:
    * `Writer`, `Peer`, `Client`
    * `serverSendBy`, `clientSendBy`
    * `send_correct_iff`
-/

namespace Efl.EcoreIpc

open Bytes CInt List Option

---
-- Writers
---

/-
  `efl_io_writer_write`: from what is queued and a slice, how
  many bytes are taken, or an error
-/
abbrev Writer :=
  List Byte → List Byte → Option Nat

/- What is queued afterwards, and whether all bytes were taken -/
def writeSlice (w : Writer) (queue slice : List Byte) : List Byte × Bool :=
  match w queue slice with
  | none => (queue, false)
  | some n => (queue ++ slice.take n, slice.length ≤ n)

/- All bytes are taken. -/
def Takes (w : Writer) (queue slice : List Byte) : Prop :=
  ∃ n, w queue slice = some n ∧ slice.length ≤ n

theorem writeSlice_cases (w : Writer) (queue : List Byte)
    {slice : List Byte} (hMore : 0 < slice.length) :
    (Takes w queue slice ∧
      writeSlice w queue slice = (queue ++ slice, true)) ∨
    (¬ Takes w queue slice ∧ ∃ t, t <+: slice ∧
      t.length < slice.length ∧ writeSlice w queue slice = (queue ++ t, false)) := by
  unfold writeSlice Takes
  cases hTaken : w queue slice with
  | none =>
    refine Or.inr ⟨?_, [], nil_prefix, hMore, ?_⟩
    · rintro ⟨n, hNone, -⟩
      exact nomatch hNone
    · rw [append_nil]
  | some n =>
    by_cases hAll : slice.length ≤ n
    · refine Or.inl ⟨⟨n, rfl, hAll⟩, ?_⟩
      dsimp only
      rw [take_of_length_le hAll, decide_eq_true hAll]
    · refine Or.inr ⟨?_, _, take_prefix n slice, ?_, ?_⟩
      · rintro ⟨m, hSome, hLe⟩
        exact hAll (some.inj hSome ▸ hLe)
      · rw [length_take]
        omega
      · dsimp only
        rw [decide_eq_false hAll]

---
-- Calls
---

/- The `prev.o` and the writer of a server or a client -/
structure Peer where
  prevO : Head
  input : Option (List Byte)

/- A client has a socket, which is open or closed. -/
structure Client extends Peer where
  socket : Option Bool

def writePayload (w : Writer) (queue : List Byte)
    (data : Option (List Byte)) (size : Word) : Option (List Byte × Bool) :=
  match data with
  | none => some (queue, true)
  | some data =>
    if 0 < size.toInt then do
      let slice ← readRange data 0 size.toInt
      some (writeSlice w queue slice)
    else
      some (queue, true)

/- `if (size < 0) size = 0` -/
def Call.clamp (c : Call) : Call :=
  { c with size := if c.size.toInt < 0 then 0 else c.size }

/- `ecore_ipc_server_send` and what it returns -/
def serverSendBy (w : Writer) (svr : Peer) (c : Call) : Option (Peer × Int) := do
  let c := c.clamp
  let msg := c.head
  let dat ← encodeHead msg svr.prevO
  match svr.input with
  | none => some (⟨msg, none⟩, 0)
  | some queue =>
    let (queue, all) := writeSlice w queue dat
    if all then do
      let (queue, all) ← writePayload w queue c.data c.size
      some (⟨msg, some queue⟩,
        if all then wrap (dat.length + c.size.toInt) else 0)
    else
      some (⟨msg, some queue⟩, 0)

/- `ecore_ipc_client_send` -/
def clientSendBy (w : Writer) (cl : Client) (c : Call) : Option (Client × Int) :=
  match cl.socket with
  | none | some true => some (cl, 0)
  | some false => do
    let (peer, ret) ← serverSendBy w cl.toPeer c
    some ({ cl with toPeer := peer }, ret)

/- The data has as many bytes as the caller says. -/
structure Message extends Call where
  readable : ∀ bs, data = some bs → size.toInt ≤ bs.length

---
-- Failed Calls
---

/- The head and as many bytes as it announces were queued. -/
def Whole (before after : Peer) (c : Call) : Prop :=
  ∃ queue body, before.input = some queue ∧
    after.input = some
      (queue ++ (headBytes c.clamp.head before.prevO ++ body)) ∧
    body <+: c.body ∧ (body.length : Int) = c.clamp.size.toInt

/-
  A call that fails leaves `prev.o` alone, and a head is
  queued with its payload.
-/
def Correct (before after : Peer) (ret : Int) (c : Call) : Prop :=
  (ret = 0 → ¬ Whole before after c → after.prevO = before.prevO) ∧
  ∀ queue rest, before.input = some queue →
    after.input = some
      (queue ++ (headBytes c.clamp.head before.prevO ++ rest)) →
    Whole before after c

/-
  The head fits, and the bytes are taken, or the head is the
  one before and cannot be sent.
-/
def Delivers (w : Writer) (p : Peer) (c : Call) : Prop :=
  4 + dltSize c.clamp.head p.prevO ≤ sizeofHead ∧
  ((∃ queue, p.input = some queue ∧
      Takes w queue (headBytes c.clamp.head p.prevO) ∧
      (c.size.toInt ≤ 0 ∨ ∃ bs, c.data = some bs ∧
        Takes w (queue ++ headBytes c.clamp.head p.prevO)
          (bs.take c.size.toInt.toNat))) ∨
    (c.clamp.head = p.prevO ∧ ∀ queue, p.input = some queue →
      ¬ Takes w queue (headBytes c.clamp.head p.prevO)))

theorem Call.clamp_size (c : Call) :
    c.clamp.size.toInt =
      if c.size.toInt < 0 then 0 else c.size.toInt := by
  unfold clamp
  dsimp only
  split <;> rfl

/- Nothing is queued, or a part of the head. -/
theorem correct_of_part {before after : Peer} {c : Call}
    (hPart : ∀ queue, before.input = some queue → ∃ t,
      t.length < (headBytes c.clamp.head before.prevO).length ∧
      after.input = some (queue ++ t)) : Correct before after 0 c ↔ after.prevO = before.prevO := by
  have hNot : ∀ queue rest, before.input = some queue →
      after.input ≠ some (queue ++ (headBytes c.clamp.head before.prevO ++ rest)) := by
    intro queue rest hQueue hAfter
    rcases hPart queue hQueue with ⟨t, hShort, hSame⟩
    have hEq := append_cancel_left (some.inj (hSame.symm.trans hAfter))
    have hLength := congrArg List.length hEq
    rw [length_append] at hLength
    omega
  constructor
  · intro hCorrect
    apply hCorrect.1 rfl
    rintro ⟨queue, body, hQueue, hAfter, -⟩
    exact hNot queue body hQueue hAfter
  · intro hSame
    exact ⟨fun _ _ => hSame, fun queue rest hQueue hAfter =>
      absurd hAfter (hNot queue rest hQueue)⟩

/- The head is queued, and the bytes `rest` behind it. -/
theorem correct_of_head {before after : Peer} {c : Call} {queue rest : List Byte} {ret : Int}
    (hQueue : before.input = some queue) (hAfter : after.input = some
      (queue ++ (headBytes c.clamp.head before.prevO ++ rest)))
    (hBody : rest <+: c.body) :
    Correct before after ret c ↔ (rest.length : Int) = c.clamp.size.toInt := by
  constructor
  · intro hCorrect
    rcases hCorrect.2 queue rest hQueue hAfter with ⟨queue', body, hQueue', hAfter', -, hLength⟩
    obtain rfl := some.inj (hQueue.symm.trans hQueue')
    have hEq := append_cancel_left (append_cancel_left (some.inj (hAfter.symm.trans hAfter')))
    rw [hEq, hLength]
  · intro hLength
    have hWhole : Whole before after c := ⟨queue, rest, hQueue, hAfter, hBody, hLength⟩
    exact ⟨fun _ hNot => absurd hWhole hNot, fun _ _ _ _ => hWhole⟩

theorem returned_iff {p : Peer → Int → Prop} {svr : Peer}
    {ret : Int} : (∃ svr' ret', some (svr, ret) = some (svr', ret') ∧ p svr' ret') ↔ p svr ret := by
  simp

/- What is queued behind a head that was taken -/
theorem writePayload_iff (w : Writer) (c : Message)
    (queue : List Byte) :
    ∃ rest all, writePayload w queue c.data c.clamp.size =
        some (queue ++ rest, all) ∧ rest <+: c.body ∧
      ((rest.length : Int) = c.clamp.size.toInt ↔
        c.size.toInt ≤ 0 ∨ ∃ bs, c.data = some bs ∧
          Takes w queue (bs.take c.size.toInt.toNat)) := by
  rcases c with ⟨c, hReadable⟩
  dsimp only
  have hClamp := c.clamp_size
  unfold writePayload
  cases hData : c.data with
  | none =>
    refine ⟨[], true, by simp, nil_prefix, ?_⟩
    rw [length_nil, hClamp]
    simp only [reduceCtorEq, false_and, exists_false, or_false]
    split <;> omega
  | some bs =>
    have hFit := hReadable bs hData
    have hBody : c.body = bs := by
      unfold Call.body
      rw [hData]
      rfl
    dsimp only
    rw [hBody]
    by_cases hSize : 0 < c.size.toInt
    · have hSame : c.clamp.size.toInt = c.size.toInt := by
        rw [hClamp, if_neg (by omega)]
      have hRead : readRange bs 0 c.size.toInt = some (bs.take c.size.toInt.toNat) := by
        unfold readRange
        rw [if_pos ⟨by omega, by omega, by omega⟩]
        rfl
      have hLength : ((bs.take c.size.toInt.toNat).length : Int) = c.size.toInt := by
        rw [length_take]
        omega
      rw [hSame, if_pos hSize, hRead, bind_eq_bind, bind_some]
      have hMore : 0 < (bs.take c.size.toInt.toNat).length := by
        omega
      rcases writeSlice_cases w queue hMore with ⟨hTakes, hWrite⟩ | ⟨hNot, t, hPart, hShort, hWrite⟩
      · exact ⟨_, true, congrArg _ hWrite, take_prefix _ _,
          fun _ => Or.inr ⟨bs, rfl, hTakes⟩, fun _ => hLength⟩
      · refine ⟨t, false, congrArg _ hWrite,
          hPart.trans (List.take_prefix _ _), fun hLe => by omega, ?_⟩
        rintro (hNone | ⟨bs', hSome, hTakes⟩)
        · omega
        · obtain rfl := some.inj hSome
          exact absurd hTakes hNot
    · refine ⟨[], true, ?_, nil_prefix, fun _ => Or.inl (by omega), fun _ => ?_⟩
      · rw [if_neg (by rw [hClamp]; split <;> omega), append_nil]
      · rw [length_nil, hClamp]
        split <;> omega

theorem serverSendBy_iff (w : Writer) (svr : Peer) (c : Message) :
    (∃ svr' ret, serverSendBy w svr c.toCall = some (svr', ret) ∧
      Correct svr svr' ret c.toCall) ↔ Delivers w svr c.toCall := by
  rcases svr with ⟨prevO, input⟩
  unfold serverSendBy Delivers
  dsimp only
  rcases encodeHead_ifFits c.clamp.head prevO with ⟨hSome, hFits⟩ | ⟨hNone, hOver⟩
  swap
  · rw [hNone]
    constructor
    · rintro ⟨svr', ret, hSend, -⟩
      exact nomatch hSend
    · rintro ⟨hFits, -⟩
      exact absurd hFits (Nat.not_le.mpr hOver)
  rw [hSome, and_iff_right hFits, bind_eq_bind, bind_some]
  have hMore : 0 < (headBytes c.clamp.head prevO).length := by
    rw [length_headBytes]
    omega
  cases input with
  | none =>
    dsimp only
    rw [returned_iff, correct_of_part (by rintro queue ⟨⟩)]
    simp
  | some queue =>
    dsimp only
    rcases writeSlice_cases w queue hMore with ⟨hTakes, hWrite⟩ | ⟨hNot, t, -, hShort, hWrite⟩
    · rcases writePayload_iff w c (queue ++ headBytes c.clamp.head prevO) with
        ⟨rest, all, hPayload, hBody, hIff⟩
      have hData : c.clamp.data = c.data := rfl
      rw [hWrite, if_pos rfl, hData, hPayload, bind_eq_bind, bind_some,
        returned_iff, correct_of_head rfl (congrArg some (append_assoc _ _ _)) hBody, hIff]
      simp [hTakes]
    · rw [hWrite, if_neg Bool.false_ne_true, returned_iff,
        correct_of_part (by rintro queue' ⟨⟩; exact ⟨t, hShort, rfl⟩)]
      simp [hNot]

/-
  A server's and a client's call.  A client that is not connected
  changes nothing.
-/
theorem send_correct_iff (w : Writer) (c : Message) :
    (∀ svr : Peer, (∃ svr' ret,
      serverSendBy w svr c.toCall = some (svr', ret) ∧
        Correct svr svr' ret c.toCall) ↔ Delivers w svr c.toCall) ∧
    ∀ cl : Client, (∃ cl' ret,
      clientSendBy w cl c.toCall = some (cl', ret) ∧
        Correct cl.toPeer cl'.toPeer ret c.toCall) ↔
      cl.socket ≠ some false ∨ Delivers w cl.toPeer c.toCall := by
  refine ⟨fun svr => serverSendBy_iff w svr c, fun cl => ?_⟩
  rcases cl with ⟨peer, socket⟩
  have hUnchanged : Correct peer peer 0 c.toCall := by
    refine ⟨fun _ _ => rfl, fun queue rest hBefore hAfter => ?_⟩
    have hLength := congrArg List.length
      (some.inj (hBefore.symm.trans hAfter))
    simp only [length_append, length_headBytes] at hLength
    omega
  rcases socket with - | _ | _
  · exact ⟨fun _ => Or.inl nofun,
      fun _ => ⟨_, _, rfl, hUnchanged⟩⟩
  · rw [← serverSendBy_iff w peer c, or_iff_right (by simp)]
    unfold clientSendBy
    dsimp only
    constructor
    · rintro ⟨cl', ret, hSend, hCorrect⟩
      rcases bind_eq_some_iff.mp hSend with
        ⟨⟨svr', ret'⟩, hServer, hSame⟩
      obtain ⟨rfl, rfl⟩ := Prod.mk.inj (some.inj hSame)
      exact ⟨svr', _, hServer, hCorrect⟩
    · rintro ⟨svr', ret, hServer, hCorrect⟩
      rw [hServer]
      exact ⟨_, _, rfl, hCorrect⟩
  · exact ⟨fun _ => Or.inl (by simp),
      fun _ => ⟨_, _, rfl, hUnchanged⟩⟩

/- The writer gives an error, and `major` is not the one before. -/
theorem send_forgets :
    ¬ ∃ svr' ret,
      serverSendBy (fun _ _ => none) ⟨⟨0, 0, 0, 0, 0, 0⟩, some []⟩
          ⟨5, 0, 0, 0, 0, none, 0⟩ = some (svr', ret) ∧
        Correct ⟨⟨0, 0, 0, 0, 0, 0⟩, some []⟩ svr' ret
          ⟨5, 0, 0, 0, 0, none, 0⟩ := by
  rw [serverSendBy_iff _ _ ⟨⟨5, 0, 0, 0, 0, none, 0⟩, nofun⟩]
  rintro ⟨-, ⟨queue, -, ⟨n, hNone, -⟩, -⟩ | ⟨hSame, -⟩⟩
  · exact nomatch hNone
  · exact absurd hSame (by decide)

end Efl.EcoreIpc
