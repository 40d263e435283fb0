import Epidemica.Lib.Incremental
import Epidemica.WebSocket.Frame

/-!
# `WebSocket.WebSocket` — one end of a web socket

The state of `_RealWebSocket` and its operations. `poll` is given what its calls of `recv` and `send` return:
the bytes that have arrived, how many bytes the socket takes, and whether the last call fails for another
reason than that it would block. The rounds of `_dispatchBinary` make the socket a consumer of `rxbuf`
(`WebSocket.consumer`), so that it does not matter in which pieces the bytes arrive (`Consumer.session_eq`),
and what they are is decided by the frames alone (`dispatch_frames`).
-/

namespace Epidemica

open Incremental

/-- `readyStateValues`. -/
inductive ReadyState where
  | closing | closed | connecting | opened
  deriving DecidableEq, Repr

/-- A message that is handed to the callback. -/
abbrev Call := List UInt8

/-- `_RealWebSocket`, without the socket. -/
structure WebSocket where
  rxbuf : List UInt8
  txbuf : List UInt8
  receivedData : List UInt8
  readyState : ReadyState
  useMask : Bool
  isRxBad : Bool
  deriving DecidableEq, Repr

namespace WebSocket

/-- A socket that has just been connected. -/
def init (useMask : Bool) : WebSocket := ⟨[], [], [], .opened, useMask, false⟩

/-! ## Sending -/

/-- `readyState == CLOSING || readyState == CLOSED`. -/
def shut (ws : WebSocket) : Bool := ws.readyState = .closing || ws.readyState = .closed

/-- `sendData`. A socket that is closing or closed drops the message. -/
def sendData (ws : WebSocket) (type : OpcodeType) (message : List UInt8) : WebSocket :=
  if ws.shut then ws else { ws with txbuf := ws.txbuf ++ sendDataBytes ws.useMask type message }

/-- `send`. -/
def send (ws : WebSocket) (message : List UInt8) : WebSocket := ws.sendData .textFrame message

/-- `sendBinary`. -/
def sendBinary (ws : WebSocket) (message : List UInt8) : WebSocket := ws.sendData .binaryFrame message

/-- `sendPing`. -/
def sendPing (ws : WebSocket) : WebSocket := ws.sendData .ping []

/-- `close`: the close frame is queued, once. -/
def close (ws : WebSocket) : WebSocket :=
  if ws.shut then ws else { ws with readyState := .closing, txbuf := ws.txbuf ++ closeFrame }

/-! ## Polling -/

/-- The loop around `recv`: the pieces it returns, and whether the connection is then at its end. -/
def recvLoop (ws : WebSocket) : List (List UInt8) → Bool → WebSocket
  | [], false => ws
  | [], true => { ws with readyState := .closed }
  | piece :: pieces, ended => recvLoop { ws with rxbuf := ws.rxbuf ++ piece } pieces ended

/-- The loop around `::send`: how many bytes each call takes, and whether the call behind them fails.
    Also the bytes taken. -/
def sendLoop (ws : WebSocket) (counts : List Nat) (failed : Bool) : WebSocket × List UInt8 :=
  if ws.txbuf = [] then (ws, [])
  else
    match counts with
    | [] => if failed then ({ ws with readyState := .closed }, []) else (ws, [])
    | ret :: counts =>
      let r := sendLoop { ws with txbuf := ws.txbuf.drop ret } counts failed
      (r.1, ws.txbuf.take ret ++ r.2)

/-- The end of `poll`. -/
def finish (ws : WebSocket) : WebSocket :=
  if ws.txbuf = [] ∧ ws.readyState = .closing then { ws with readyState := .closed } else ws

/-- What the socket does in one call of `poll`. -/
structure PollCalls where
  pieces : List (List UInt8)
  ended : Bool
  counts : List Nat
  failed : Bool
  deriving DecidableEq, Repr

/-- `poll`, and the bytes written to the socket. The timeout only waits. -/
def poll (ws : WebSocket) (io : PollCalls) : WebSocket × List UInt8 :=
  if ws.readyState = .closed then (ws, [])
  else
    let r := (ws.recvLoop io.pieces io.ended).sendLoop io.counts io.failed
    (r.1.finish, r.2)

/-- The bytes that a call of `poll` takes in. -/
def arriving (ws : WebSocket) (io : PollCalls) : List UInt8 :=
  if ws.readyState = .closed then [] else io.pieces.flatten

/-! ## Dispatching -/

/-- "We got a whole message, now do something with it". The close frame and an unexpected opcode are
    answered with `close`. -/
def gotMessage (ws : WebSocket) (fin : Bool) (opcode : Option OpcodeType) (data : List UInt8) :
    WebSocket × List Call :=
  match opcode with
  | some .textFrame | some .binaryFrame | some .continuation =>
    if fin then ({ ws with receivedData := [] }, [ws.receivedData ++ data])
    else ({ ws with receivedData := ws.receivedData ++ data }, [])
  | some .ping => (ws.sendData .pong data, [])
  | some .pong => (ws, [])
  | some .close => (ws.close, [])
  | none => (ws.close, [])

/-- The payload of the frame at the front of `rxbuf`. -/
def payload (ws : WebSocket) (header : WsHeader) : List UInt8 :=
  let data := (ws.rxbuf.drop header.headerSize).take header.N
  if header.mask then applyMask header.maskingKey data else data

/-- The socket with other bytes in `rxbuf`. -/
def setRxbuf (ws : WebSocket) (bytes : List UInt8) : WebSocket := { ws with rxbuf := bytes }

/-- `rxbuf.erase`. -/
def erase (ws : WebSocket) (n : Nat) : WebSocket := ws.setRxbuf (ws.rxbuf.drop n)

/-- A round of `_dispatchBinary` with the calls of the callback; `none` is a return that changes nothing.
    `isRxBad` is tested on entry, and once it is set the loop is left: testing it in each round is the same. -/
def dispatchRound (ws : WebSocket) : Option (WebSocket × List Call) :=
  if ws.isRxBad then none
  else
    match peek ws.rxbuf with
    | .more => none
    | .bad => some ({ ws with isRxBad := true }.close, [])
    | .frame header =>
      let r := ws.gotMessage header.fin header.opcode (ws.payload header)
      some (r.1.erase (header.headerSize + header.N), r.2)

/-- Bytes arrive. -/
def feed (ws : WebSocket) (bytes : List UInt8) : WebSocket := ws.setRxbuf (ws.rxbuf ++ bytes)

@[simp] theorem setRxbuf_rxbuf (ws : WebSocket) (bytes : List UInt8) :
    (ws.setRxbuf bytes).rxbuf = bytes := rfl

@[simp] theorem setRxbuf_shut (ws : WebSocket) (bytes : List UInt8) :
    (ws.setRxbuf bytes).shut = ws.shut := rfl

@[simp] theorem setRxbuf_isRxBad (ws : WebSocket) (bytes : List UInt8) :
    (ws.setRxbuf bytes).isRxBad = ws.isRxBad := rfl

@[simp] theorem setRxbuf_setRxbuf (ws : WebSocket) (front bytes : List UInt8) :
    (ws.setRxbuf front).setRxbuf bytes = ws.setRxbuf bytes := rfl

/-! ## What the operations leave alone -/

section
variable (ws : WebSocket) (bytes : List UInt8) (type : OpcodeType) (message data : List UInt8)
  (fin : Bool) (opcode : Option OpcodeType)

theorem sendData_setRxbuf :
    (ws.setRxbuf bytes).sendData type message = (ws.sendData type message).setRxbuf bytes := by
  unfold sendData
  rw [setRxbuf_shut]
  split <;> rfl

theorem close_setRxbuf : (ws.setRxbuf bytes).close = ws.close.setRxbuf bytes := by
  unfold close
  rw [setRxbuf_shut]
  split <;> rfl

@[simp] theorem sendData_rxbuf : (ws.sendData type message).rxbuf = ws.rxbuf := by
  unfold sendData
  split <;> rfl

@[simp] theorem sendData_receivedData : (ws.sendData type message).receivedData = ws.receivedData := by
  unfold sendData
  split <;> rfl

@[simp] theorem sendData_isRxBad : (ws.sendData type message).isRxBad = ws.isRxBad := by
  unfold sendData
  split <;> rfl

@[simp] theorem sendData_readyState : (ws.sendData type message).readyState = ws.readyState := by
  unfold sendData
  split <;> rfl

@[simp] theorem close_rxbuf : ws.close.rxbuf = ws.rxbuf := by
  unfold close
  split <;> rfl

@[simp] theorem close_receivedData : ws.close.receivedData = ws.receivedData := by
  unfold close
  split <;> rfl

@[simp] theorem close_isRxBad : ws.close.isRxBad = ws.isRxBad := by
  unfold close
  split <;> rfl

/-- The second half of a round does not look at `rxbuf`. -/
theorem gotMessage_setRxbuf : (ws.setRxbuf bytes).gotMessage fin opcode data =
    ((ws.gotMessage fin opcode data).1.setRxbuf bytes, (ws.gotMessage fin opcode data).2) := by
  rcases opcode with _ | _ | _ | _ | _ | _ | _
  case some.continuation | some.textFrame | some.binaryFrame => cases fin <;> rfl
  case none | some.close => exact Prod.ext (close_setRxbuf ws bytes) rfl
  case some.ping => exact Prod.ext (sendData_setRxbuf ws bytes .pong data) rfl
  case some.pong => rfl

@[simp] theorem gotMessage_rxbuf : (ws.gotMessage fin opcode data).1.rxbuf = ws.rxbuf := by
  rcases opcode with _ | _ | _ | _ | _ | _ | _
  case some.continuation | some.textFrame | some.binaryFrame => cases fin <;> rfl
  case none | some.close => exact close_rxbuf ws
  case some.ping => exact sendData_rxbuf ws .pong data
  case some.pong => rfl

@[simp] theorem gotMessage_isRxBad : (ws.gotMessage fin opcode data).1.isRxBad = ws.isRxBad := by
  rcases opcode with _ | _ | _ | _ | _ | _ | _
  case some.continuation | some.textFrame | some.binaryFrame => cases fin <;> rfl
  case none | some.close => exact close_isRxBad ws
  case some.ping => exact sendData_isRxBad ws .pong data
  case some.pong => rfl

end

/-! ## What `poll` does -/

/-- The socket with other bytes in `txbuf` and another state. -/
def setSender (ws : WebSocket) (tx : List UInt8) (state : ReadyState) : WebSocket :=
  { ws with txbuf := tx, readyState := state }

theorem recvLoop_spec (ws : WebSocket) (pieces : List (List UInt8)) (ended : Bool) :
    ws.recvLoop pieces ended =
      (ws.feed pieces.flatten).setSender ws.txbuf (if ended then .closed else ws.readyState) := by
  induction pieces generalizing ws with
  | nil => cases ended <;> simp [recvLoop, feed, setRxbuf, setSender]
  | cons piece pieces ih =>
    rw [recvLoop, ih]
    simp [feed, setRxbuf, setSender]

/-- The loop around `::send` cuts `txbuf`, and may close the socket. -/
theorem sendLoop_spec (ws : WebSocket) (counts : List Nat) (failed : Bool) :
    ∃ tx state, (ws.sendLoop counts failed).1 = ws.setSender tx state ∧
      ws.txbuf = (ws.sendLoop counts failed).2 ++ tx ∧ (state = ws.readyState ∨ state = .closed) := by
  induction counts generalizing ws with
  | nil =>
    unfold sendLoop
    split
    · exact ⟨ws.txbuf, ws.readyState, rfl, rfl, .inl rfl⟩
    · cases failed with
      | false => exact ⟨ws.txbuf, ws.readyState, rfl, rfl, .inl rfl⟩
      | true => exact ⟨ws.txbuf, .closed, rfl, rfl, .inr rfl⟩
  | cons ret counts ih =>
    unfold sendLoop
    split
    · exact ⟨ws.txbuf, ws.readyState, rfl, rfl, .inl rfl⟩
    · obtain ⟨tx, state, hws, htx, hstate⟩ := ih { ws with txbuf := ws.txbuf.drop ret }
      refine ⟨tx, state, hws, ?_, hstate⟩
      show _ = ws.txbuf.take ret ++ _ ++ tx
      rw [List.append_assoc, ← htx, List.take_append_drop]

theorem finish_spec (ws : WebSocket) :
    ∃ state, ws.finish = ws.setSender ws.txbuf state ∧ (state = ws.readyState ∨ state = .closed) := by
  unfold finish
  split
  · exact ⟨.closed, rfl, .inr rfl⟩
  · exact ⟨ws.readyState, rfl, .inl rfl⟩

/-- A poll appends what arrives to `rxbuf`, takes what is written off `txbuf`, and may close the socket;
    nothing else changes. -/
theorem poll_spec (ws : WebSocket) (io : PollCalls) :
    ∃ tx state, (ws.poll io).1 = (ws.feed (ws.arriving io)).setSender tx state ∧
      ws.txbuf = (ws.poll io).2 ++ tx ∧ (state = ws.readyState ∨ state = .closed) := by
  by_cases hclosed : ws.readyState = .closed
  · rw [poll, arriving, if_pos hclosed, if_pos hclosed]
    exact ⟨ws.txbuf, ws.readyState, by simp [feed, setRxbuf, setSender], rfl, .inl rfl⟩
  · rw [poll, arriving, if_neg hclosed, if_neg hclosed]
    have hrecv := recvLoop_spec ws io.pieces io.ended
    obtain ⟨tx, state, hws, htx, hstate⟩ :=
      sendLoop_spec (ws.recvLoop io.pieces io.ended) io.counts io.failed
    obtain ⟨last, hfinish, hlast⟩ := finish_spec (ws.recvLoop io.pieces io.ended
      |>.sendLoop io.counts io.failed).1
    refine ⟨tx, last, ?_, ?_, ?_⟩
    · show ((ws.recvLoop io.pieces io.ended).sendLoop io.counts io.failed).1.finish = _
      rw [hfinish, hws, hrecv]
      rfl
    · rw [hrecv] at htx ⊢
      exact htx
    · rw [hws] at hlast
      rw [hrecv] at hstate
      rcases hlast with rfl | rfl
      · rcases hstate with rfl | rfl
        · cases io.ended
          · exact .inl rfl
          · exact .inr rfl
        · exact .inr rfl
      · exact .inr rfl

/-! ## The loop -/

section
variable {ws ws' : WebSocket} {calls : List Call}

/-- What a round that does something does. -/
theorem dispatchRound_cases (h : ws.dispatchRound = some (ws', calls)) :
    ws.isRxBad = false ∧
      ((peek ws.rxbuf = .bad ∧ ws' = { ws with isRxBad := true }.close ∧ calls = []) ∨
        ∃ header, peek ws.rxbuf = .frame header ∧
          ws' = (ws.gotMessage header.fin header.opcode (ws.payload header)).1.erase
            (header.headerSize + header.N) ∧
          calls = (ws.gotMessage header.fin header.opcode (ws.payload header)).2) := by
  unfold dispatchRound at h
  split at h
  · exact absurd h (by simp)
  · rename_i hbad
    refine ⟨by simpa using hbad, ?_⟩
    split at h
    · exact absurd h (by simp)
    · rename_i hpeek
      obtain ⟨rfl, rfl⟩ := Prod.mk.inj (Option.some.inj h)
      exact .inl ⟨hpeek, rfl, rfl⟩
    · rename_i header hpeek
      obtain ⟨rfl, rfl⟩ := Prod.mk.inj (Option.some.inj h)
      exact .inr ⟨header, hpeek, rfl, rfl⟩

theorem payload_feed {header : WsHeader} (bytes : List UInt8)
    (h : header.headerSize + header.N ≤ ws.rxbuf.length) :
    (ws.feed bytes).payload header = ws.payload header := by
  have htake : ((ws.rxbuf ++ bytes).drop header.headerSize).take header.N =
      (ws.rxbuf.drop header.headerSize).take header.N := by
    rw [List.drop_append_of_le_length (by omega),
      List.take_append_of_le_length (by rw [List.length_drop]; omega)]
  simp only [payload, feed, setRxbuf_rxbuf, htake]

/-- A round does the same when more has arrived. -/
theorem dispatchRound_feed (bytes : List UInt8) (h : ws.dispatchRound = some (ws', calls)) :
    (ws.feed bytes).dispatchRound = some (ws'.feed bytes, calls) := by
  obtain ⟨hbad, ⟨hpeek, rfl, rfl⟩ | ⟨header, hpeek, rfl, rfl⟩⟩ := dispatchRound_cases h
  · have hpeek' : peek (ws.feed bytes).rxbuf = .bad := peek_bad_append bytes hpeek
    have hflag : ¬ (ws.feed bytes).isRxBad = true := by simpa [feed] using hbad
    have hclose := close_setRxbuf { ws with isRxBad := true } (ws.rxbuf ++ bytes)
    rw [dispatchRound, if_neg hflag, hpeek']
    simp only [feed, close_rxbuf, ← hclose]
    rfl
  · have hpeek' : peek (ws.feed bytes).rxbuf = .frame header := peek_append bytes hpeek
    have hflag : ¬ (ws.feed bytes).isRxBad = true := by simpa [feed] using hbad
    obtain ⟨-, -, -, -, -, hsize, -⟩ := peek_frame hpeek
    rw [dispatchRound, if_neg hflag, hpeek']
    dsimp only
    rw [payload_feed bytes hsize]
    simp only [feed, erase, gotMessage_setRxbuf, setRxbuf_rxbuf, setRxbuf_setRxbuf, gotMessage_rxbuf,
      List.drop_append_of_le_length hsize]

/-- A round takes a frame off `rxbuf`, or is the last one. -/
theorem dispatchRound_size (h : ws.dispatchRound = some (ws', calls)) :
    ws'.rxbuf.length + (if ws'.isRxBad then 0 else 1) <
      ws.rxbuf.length + (if ws.isRxBad then 0 else 1) := by
  obtain ⟨hbad, ⟨-, rfl, -⟩ | ⟨header, hpeek, rfl, -⟩⟩ := dispatchRound_cases h
  · simp [hbad]
  · obtain ⟨data₀, data₁, data, -, rfl, hsize, -⟩ := peek_frame hpeek
    have htwo := two_le_headerSize data₀ data₁ data
    simp only [erase, setRxbuf_rxbuf, setRxbuf_isRxBad, gotMessage_rxbuf, gotMessage_isRxBad, List.length_drop]
    omega

end

/-- The rounds of `_dispatchBinary`, as a consumer of `rxbuf`. -/
def consumer : Consumer WebSocket UInt8 Call where
  feed := feed
  step := dispatchRound
  size ws := ws.rxbuf.length + (if ws.isRxBad then 0 else 1)
  feed_nil ws := by simp [feed, setRxbuf]
  feed_append ws a b := by simp [feed]
  size_step := dispatchRound_size
  step_feed := dispatchRound_feed

/-- `_dispatchBinary`, with the calls of the callback. -/
def dispatch (ws : WebSocket) : WebSocket × List Call := consumer.drain ws

end WebSocket
end Epidemica
