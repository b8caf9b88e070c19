import Efl.EcoreIpc.Sending

/-
  A connection with messages in both directions.

  A process has an `Ecore_Ipc_Server` for its end, the other one
  an `Ecore_Ipc_Client`.  Both send, and the bytes on the way
  arrive in chunks of any size, in any order of these moves.

  Main declarations:
    * `Peers`, `Move`, `step`, `Allowed`
    * `Flowing`, `Flowing.send`, `Flowing.data`
    * `session_in_order`
-/

namespace Efl.EcoreIpc.Session

open Bytes CInt List Option

---
-- Moves
---

/- A writer that takes all bytes -/
def takeAll : Writer :=
  fun _ slice => some slice.length

/-
  What a side has queued is on the way to the other one.
  `svrSent` and `clSent` are the messages of the calls so far.
-/
structure Peers where
  svr : Peer
  svrConn : Conn
  cl : Client
  clConn : Conn
  svrSent : List Call
  clSent : List Call

/- A chunk is as many bytes of those on the way. -/
inductive Move where
  | serverSend (c : Call)
  | clientSend (c : Call)
  | clientData (n : Nat)
  | serverData (n : Nat)

def step (svrMax : Int) (s : Peers) : Move → Option Peers
  | .serverSend c => do
    let (svr, _) ← serverSendBy takeAll s.svr c
    some { s with svr := svr, svrSent := s.svrSent ++ [c] }
  | .clientSend c => do
    let (cl, _) ← clientSendBy takeAll s.cl c
    some { s with cl := cl, clSent := s.clSent ++ [c] }
  | .clientData n => do
    let queue ← s.svr.input
    let conn ← clientDataProcess svrMax allocAll s.clConn (queue.take n)
    some
      { s with
        svr := { s.svr with input := some (queue.drop n) }
        clConn := conn }
  | .serverData n => do
    let queue ← s.cl.input
    let conn ← serverDataProcess allocAll s.svrConn (queue.take n)
    some
      { s with
        cl := { s.cl with input := some (queue.drop n) }
        svrConn := conn }

/- Both ends after the connection -/
def new (svrMax clMax : Int) : Peers where
  svr := ⟨zeroHead, some []⟩
  svrConn := { newClient with maxBufSize := svrMax }
  cl := ⟨⟨zeroHead, some []⟩, some false⟩
  clConn := { newClient with maxBufSize := clMax }
  svrSent := []
  clSent := []

/- A message that fits in `dat`, an `int` and the receiver's limit -/
def Sendable (max : Int) (peer : Peer) (c : Call) : Prop :=
  c.Sized ∧ 4 + dltSize c.head peer.prevO ≤ sizeofHead ∧
    WithinLimit max c ∧ ((c.message peer.prevO).length : Int) ≤ intMax

instance (max : Int) (peer : Peer) (c : Call) : Decidable (Sendable max peer c) :=
  inferInstanceAs (Decidable (_ ∧ _))

/- The buffer that grows by a chunk has an `int` for its size. -/
def Allowed (svrMax : Int) (s : Peers) : Move → Prop
  | .serverSend c =>
    Sendable (clientMax svrMax s.clConn.maxBufSize) s.svr c
  | .clientSend c => Sendable s.svrConn.maxBufSize s.cl.toPeer c
  | .clientData n =>
    SizeFits s.clConn ((s.svr.input.getD []).take n)
  | .serverData n =>
    SizeFits s.svrConn ((s.cl.input.getD []).take n)

instance (svrMax : Int) (s : Peers) :
    ∀ move, Decidable (Allowed svrMax s move)
  | .serverSend _ | .clientSend _ =>
    inferInstanceAs (Decidable (Sendable _ _ _))
  | .clientData _ | .serverData _ =>
    inferInstanceAs (Decidable (_ ≤ _))

---
-- One Direction
---

/-
  What was sent, what is on the way and what has arrived fit
  together; `max` is the limit of the receiver.
-/
structure Flowing (max : Int) (sent : List Call) (peer : Peer) (conn : Conn) : Prop where
  prevO : peer.prevO = lastHead zeroHead sent
  queued : ∃ queue, peer.input = some queue ∧
    Receiving zeroHead sent queue conn
  sized : ∀ c ∈ sent, c.Sized
  limit : ∀ c ∈ sent, WithinLimit max c
  fit : MessagesFit zeroHead sent

/- Nothing was sent. -/
theorem Flowing.new (max limit : Int) :
    Flowing max [] ⟨zeroHead, some []⟩ { newClient with maxBufSize := limit } where
  prevO := rfl
  queued := ⟨[], rfl, rfl, [], [], rfl, rfl, rfl, rfl, by simp⟩
  sized := by simp
  limit := by simp
  fit := trivial

theorem stream_append (prev : Head) (cs : List Call) (c : Call) :
    stream prev (cs ++ [c]) = stream prev cs ++ c.message (lastHead prev cs) := by
  induction cs generalizing prev with
  | nil => exact append_nil _
  | cons d cs ih => simp [stream, lastHead, ih]

theorem messagesFit_append {prev : Head} {cs : List Call} {c : Call} (hFit : MessagesFit prev cs)
    (hMessage : ((c.message (lastHead prev cs)).length : Int) ≤ intMax) :
    MessagesFit prev (cs ++ [c]) := by
  induction cs generalizing prev with
  | nil => exact ⟨hMessage, trivial⟩
  | cons d cs ih => exact ⟨hFit.1, ih hFit.2 hMessage⟩

/- A message more is sent. -/
theorem receiving_send {prev : Head} {cs : List Call} {queue : List Byte} {conn : Conn} (c : Call)
    (hReceiving : Receiving prev cs queue conn) :
    Receiving prev (cs ++ [c]) (queue ++ c.message (lastHead prev cs)) conn := by
  rcases hReceiving with ⟨hAlive, done, todo, rfl, hEvents, hPrev, hStream, hShort⟩
  refine ⟨hAlive, done, todo ++ [c], append_assoc _ _ _, hEvents, hPrev, ?_, ?_⟩
  · rw [← append_assoc, hStream, stream_append, hPrev, lastHead_append]
  · cases todo with
    | cons d todo => exact hShort
    | nil =>
      -- The buffer has nothing of a message that was not sent.
      have hNone : conn.buf.getD [] = [] := (append_eq_nil_iff.mp hStream).1
      intro c' _
      rw [hNone]
      exact c'.message_pos _

/- A call with a writer that takes all bytes -/
theorem serverSendBy_takeAll {prevO : Head} {c : Call} (queue : List Byte) (hSized : c.Sized)
    (hHead : 4 + dltSize c.head prevO ≤ sizeofHead) :
    ∃ ret, serverSendBy takeAll ⟨prevO, some queue⟩ c =
      some (⟨c.head, some (queue ++ c.message prevO)⟩, ret) := by
  have hClamp : c.clamp = c := by
    have h : c.size.toInt = c.body.length := hSized
    unfold Call.clamp
    rw [if_neg (by omega)]
  have hWrite : ∀ queue slice, writeSlice takeAll queue slice = (queue ++ slice, true) := by
    intro queue slice
    simp [writeSlice, takeAll]
  have hPayload : ∀ queue, writePayload takeAll queue c.data c.size =
      some (queue ++ c.body, true) := by
    intro queue
    have hSome := payload_eq hSized
    unfold payload at hSome
    unfold writePayload
    cases hData : c.data with
    | none => simp [Call.body, hData]
    | some data =>
      rw [hData] at hSome
      dsimp only at hSome ⊢
      split
      case isTrue hMore =>
        rw [if_pos hMore] at hSome
        rw [hSome, bind_eq_bind, bind_some, hWrite]
      case isFalse hMore =>
        rw [if_neg hMore] at hSome
        rw [← some.inj hSome, append_nil]
  rcases encodeHead_ifFits c.head prevO with ⟨hSome, -⟩ | ⟨-, hOver⟩
  swap
  · omega
  unfold serverSendBy
  simp only [hClamp, hSome, hWrite, hPayload, bind_eq_bind, bind_some,
    if_true, append_assoc, Call.message]
  exact ⟨_, rfl⟩

variable {max : Int} {sent : List Call} {peer : Peer} {conn : Conn}

theorem Flowing.send {c : Call} (hFlowing : Flowing max sent peer conn)
    (hSend : Sendable max peer c) :
    ∃ peer' ret, serverSendBy takeAll peer c = some (peer', ret) ∧
      Flowing max (sent ++ [c]) peer' conn := by
  rcases hSend with ⟨hSized, hHead, hLimit, hMessage⟩
  rcases hFlowing with ⟨hPrev, ⟨queue, hQueue, hReceiving⟩, hAll, hLimits, hFit⟩
  rcases peer with ⟨prevO, input⟩
  obtain rfl : input = some queue := hQueue
  obtain rfl : prevO = lastHead zeroHead sent := hPrev
  rcases serverSendBy_takeAll queue hSized hHead with ⟨ret, hCall⟩
  refine ⟨_, ret, hCall, ?_, ⟨_, rfl, receiving_send c hReceiving⟩, ?_, ?_,
    messagesFit_append hFit hMessage⟩
  · rw [lastHead_append]
    rfl
  · exact forall_mem_append.mpr ⟨hAll, forall_mem_singleton.mpr hSized⟩
  · exact forall_mem_append.mpr ⟨hLimits, forall_mem_singleton.mpr hLimit⟩

/- A chunk arrives. -/
theorem Flowing.data (n : Nat) (hFlowing : Flowing max sent peer conn)
    (hSize : SizeFits conn ((peer.input.getD []).take n)) :
    ∃ queue conn', peer.input = some queue ∧
      dataProcess max allocAll conn (queue.take n) = some conn' ∧
      Flowing max sent { peer with input := some (queue.drop n) } conn' ∧
      conn'.maxBufSize = conn.maxBufSize := by
  rcases hFlowing with ⟨hPrev, ⟨queue, hQueue, hReceiving⟩, hSized, hLimit, hFit⟩
  rw [hQueue] at hSize
  rw [← take_append_drop n queue] at hReceiving
  rcases dataProcess_receiving hSized hLimit hFit hSize hReceiving with
    ⟨conn', hCall, hReceiving', hSame⟩
  exact ⟨queue, conn', hQueue, hCall, ⟨hPrev, ⟨_, rfl, hReceiving'⟩, hSized, hLimit, hFit⟩, hSame⟩

---
-- Both Directions
---

structure Inv (svrMax : Int) (s : Peers) : Prop where
  socket : s.cl.socket = some false
  toClient : Flowing (clientMax svrMax s.clConn.maxBufSize)
    s.svrSent s.svr s.clConn
  toServer : Flowing s.svrConn.maxBufSize s.clSent s.cl.toPeer
    s.svrConn

theorem step_inv {svrMax : Int} {s : Peers} {move : Move}
    (hInv : Inv svrMax s) (hAllowed : Allowed svrMax s move) :
    ∃ s', step svrMax s move = some s' ∧ Inv svrMax s' := by
  rcases hInv with ⟨hSocket, hClient, hServer⟩
  cases move with
  | serverSend c =>
    rcases hClient.send hAllowed with ⟨svr, ret, hCall, hClient'⟩
    refine ⟨{ s with svr := svr, svrSent := s.svrSent ++ [c] }, ?_, hSocket, hClient', hServer⟩
    simp only [step, hCall, bind_eq_bind, bind_some]
  | clientSend c =>
    rcases hServer.send hAllowed with ⟨peer, ret, hCall, hServer'⟩
    refine ⟨{ s with
      cl := { s.cl with toPeer := peer }
      clSent := s.clSent ++ [c] }, ?_, hSocket, hClient, hServer'⟩
    simp only [step, clientSendBy, hSocket, hCall, bind_eq_bind, bind_some]
  | clientData n =>
    rcases hClient.data n hAllowed with ⟨queue, conn, hQueue, hCall, hClient', hSame⟩
    refine ⟨{ s with
      svr := { s.svr with input := some (queue.drop n) }
      clConn := conn }, ?_, hSocket, hSame ▸ hClient', hServer⟩
    simp only [step, clientDataProcess, hQueue, hCall, bind_eq_bind, bind_some]
  | serverData n =>
    rcases hServer.data n hAllowed with ⟨queue, conn, hQueue, hCall, hServer', hSame⟩
    refine ⟨{ s with
      cl := { s.cl with input := some (queue.drop n) }
      svrConn := conn }, ?_, hSocket, hClient, hSame ▸ hServer'⟩
    simp only [step, serverDataProcess, hQueue, hCall, bind_eq_bind, bind_some]

/-
  The first messages that were sent have arrived, in order, and
  all of them when none of their bytes is on the way.
-/
def Arrived (sent : List Call) (peer : Peer) (conn : Conn) : Prop :=
  conn.events <+: sent.map Call.event ∧
    (peer.input = some [] → conn.events = sent.map Call.event ∧
      conn.prevI = peer.prevO)

theorem Flowing.arrived (hFlowing : Flowing max sent peer conn) : Arrived sent peer conn := by
  rcases hFlowing.queued with ⟨queue, hQueue, hReceiving⟩
  constructor
  · rcases hReceiving with ⟨-, done, todo, rfl, hEvents, -⟩
    rw [hEvents, map_append]
    exact prefix_append _ _
  · intro hNone
    obtain rfl := some.inj (hQueue.symm.trans hNone)
    rw [hFlowing.prevO]
    exact hReceiving.complete

/-
  In every interleaving of sends of both sides and chunks to both
  sides, each gets the messages of the other one and nothing else.
-/
theorem session_in_order (svrMax clMax : Int) {limit : Int}
    {moves : List Move} (hGuarded : Runs.Guarded (step svrMax)
      (Allowed svrMax) (new limit clMax) moves) :
    ∃ s, Runs.run (step svrMax) (new limit clMax) moves = some s ∧
      Arrived s.svrSent s.svr s.clConn ∧ Arrived s.clSent s.cl.toPeer s.svrConn := by
  have hStart : Inv svrMax (new limit clMax) := ⟨rfl, .new _ clMax, .new _ limit⟩
  rcases Runs.run_of_guarded (Inv svrMax)
      (fun _ _ hInv hAllowed => step_inv hInv hAllowed) hStart hGuarded with ⟨s, hRun, hInv⟩
  exact ⟨s, hRun, hInv.toClient.arrived, hInv.toServer.arrived⟩

/- Messages of both sides, the first one in two chunks -/
def sampleMoves : List Move :=
  [.serverSend ⟨1, 2, 300, 400, -1, some [7, 8, 9], 3⟩,
    .clientData 3, .clientSend ⟨1, 70000, 0, 0, 0, none, 0⟩,
    .serverData 9, .clientData 90]

theorem session_in_order_sample :
    ∃ s, Runs.run (step (-1)) (new (-1) 8) sampleMoves = some s ∧
      Arrived s.svrSent s.svr s.clConn ∧ Arrived s.clSent s.cl.toPeer s.svrConn := by
  have hGuard : Runs.guard (step (-1)) (fun s move => decide (Allowed (-1) s move))
      (new (-1) 8) sampleMoves = true := by decide
  exact session_in_order (-1) 8
    ((Runs.guarded_of_guard hGuard).mono fun _ _ hAllowed => of_decide_eq_true hAllowed)

end Efl.EcoreIpc.Session
