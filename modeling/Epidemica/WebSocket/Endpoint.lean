import Epidemica.Lib.Transition
import Epidemica.WebSocket.Reception

/-!
# `WebSocket.Endpoint` — a socket in any company

One end of a connection whose other end may do anything: `poll` receives any bytes, and the socket takes as
many as it likes. Over whole runs, with calls of `send`, `sendBinary`, `sendPing`, `close`, `poll` and
`dispatch` in any order, the messages handed to the callback depend on the bytes received and on nothing else
(`calls_of_received`), and the bytes written are those of the frames of the messages accepted, of pings and
pongs between them, and of one close frame at the end, up to the place where the socket stopped taking them
(`outgoing`).
-/

namespace Epidemica
namespace Endpoint

open Incremental Transition WsFrame

/-- The operations on a socket. -/
inductive Label where
  | send (message : List UInt8)
  | sendBinary (message : List UInt8)
  | sendPing
  | close
  | poll (io : WebSocket.PollCalls)
  | dispatch
  deriving DecidableEq, Repr

/-- An operation on a socket. -/
def step (ws : WebSocket) : Label → WebSocket
  | .send message => ws.send message
  | .sendBinary message => ws.sendBinary message
  | .sendPing => ws.sendPing
  | .close => ws.close
  | .poll io => (ws.poll io).1
  | .dispatch => ws.dispatch.1

/-- A socket that has just been connected. -/
def system (useMask : Bool) : System WebSocket Label :=
  ⟨fun ws => ws = WebSocket.init useMask, fun ws l => some (step ws l)⟩

/-- What has passed through the socket. -/
structure Hist where
  /-- The messages sent while it was open. -/
  accepted : List Call
  /-- The bytes the socket has taken. -/
  written : List UInt8
  /-- The bytes that have arrived. -/
  received : List UInt8
  /-- The calls of the callback. -/
  calls : List Call
  deriving DecidableEq, Repr

/-- Nothing has passed through. -/
def Hist.empty : Hist := ⟨[], [], [], []⟩

/-- The message an operation has accepted. -/
def accepting (ws : WebSocket) : Label → List Call
  | .send message | .sendBinary message => if ws.shut then [] else [message]
  | _ => []

/-- The bytes it has written. -/
def writing (ws : WebSocket) : Label → List UInt8
  | .poll io => (ws.poll io).2
  | _ => []

/-- The bytes it has taken in. -/
def receiving (ws : WebSocket) : Label → List UInt8
  | .poll io => ws.arriving io
  | _ => []

/-- The calls it has made. -/
def calling (ws : WebSocket) : Label → List Call
  | .dispatch => ws.dispatch.2
  | _ => []

/-- What an operation adds to the history. -/
def record (ws : WebSocket) (l : Label) (h : Hist) : Hist where
  accepted := h.accepted ++ accepting ws l
  written := h.written ++ writing ws l
  received := h.received ++ receiving ws l
  calls := h.calls ++ calling ws l

/-- A socket with its history. -/
def historySystem (useMask : Bool) : System (WebSocket × Hist) Label :=
  (system useMask).withHistory Hist.empty record

/-- The strings that are sent have sizes a string can have. -/
def fits : Guard WebSocket Label
  | _, .send message | _, .sendBinary message => message.length < 2 ^ 63
  | _, _ => True

instance : ∀ ws l, Decidable (fits ws l)
  | _, .send message | _, .sendBinary message => inferInstanceAs (Decidable (message.length < 2 ^ 63))
  | _, .sendPing | _, .close | _, .poll _ | _, .dispatch => isTrue trivial

end Endpoint

/-! ## The receiving side -/

namespace WebSocket

open Incremental WsFrame

variable {ws : WebSocket}

/-- The receiving side of a socket: a closed socket sends nothing. -/
def mute (ws : WebSocket) : WebSocket := { ws.setSender [] .closed with useMask := false }

theorem sendData_mute (ws : WebSocket) (type : OpcodeType) (message : List UInt8) :
    (ws.sendData type message).mute = ws.mute := by
  unfold sendData
  split <;> rfl

theorem close_mute (ws : WebSocket) : ws.close.mute = ws.mute := by
  unfold close
  split <;> rfl

theorem gotMessage_mute (ws : WebSocket) (fin : Bool) (opcode : Option OpcodeType) (data : List UInt8) :
    ws.mute.gotMessage fin opcode data =
      ((ws.gotMessage fin opcode data).1.mute, (ws.gotMessage fin opcode data).2) := by
  rcases opcode with _ | _ | _ | _ | _ | _ | _
  case some.continuation | some.textFrame | some.binaryFrame => cases fin <;> rfl
  case none | some.close => exact Prod.ext (close_mute ws).symm rfl
  case some.ping => exact Prod.ext (sendData_mute ws .pong data).symm rfl
  case some.pong => rfl

/-- What is received does not depend on what is sent. -/
theorem dispatchRound_mute (ws : WebSocket) :
    ws.mute.dispatchRound = ws.dispatchRound.map fun r => (r.1.mute, r.2) := by
  have hflag : ws.mute.isRxBad = ws.isRxBad := rfl
  have hrx : ws.mute.rxbuf = ws.rxbuf := rfl
  unfold dispatchRound
  rw [hflag, hrx]
  split
  · rfl
  · split
    · rfl
    · exact congrArg (fun w => some (w, [])) (close_mute { ws with isRxBad := true }).symm
    · rename_i header _
      have hpayload : ws.mute.payload header = ws.payload header := rfl
      simp only [gotMessage_mute, hpayload, Option.map_some]
      rfl

theorem dispatch_mute (ws : WebSocket) : ws.mute.dispatch = (ws.dispatch.1.mute, ws.dispatch.2) :=
  Consumer.drain_view (C := consumer) dispatchRound_mute ws

theorem poll_mute (ws : WebSocket) (io : PollCalls) :
    (ws.poll io).1.mute = ws.mute.feed (ws.arriving io) := by
  obtain ⟨tx, state, hws, -, -⟩ := poll_spec ws io
  rw [hws]
  rfl

end WebSocket

namespace Endpoint

open Incremental Transition WsFrame WebSocket

variable {useMask : Bool} {G : Guard WebSocket Label} {ws : WebSocket} {h : Hist}

theorem history_step {ws ws' : WebSocket} {h h' : Hist} {l : Label}
    (hst : (historySystem useMask).step (ws, h) l = some (ws', h')) :
    ws' = step ws l ∧ h' = record ws l h := by
  obtain ⟨hstep, hrecord⟩ := withHistory_step.mp hst
  exact ⟨(Option.some.inj hstep).symm, hrecord⟩

theorem follows (hs : Reachable (historySystem useMask) (Guard.past G) (ws, h)) :
    consumer.Follows (init useMask).mute h.received ws.mute h.calls := by
  refine Reachable.invariant
    (I := fun y => consumer.Follows (init useMask).mute y.2.received y.1.mute y.2.calls) ?_ ?_ hs
  · rintro ⟨ws, h⟩ ⟨hinit, hempty⟩
    obtain rfl : ws = init useMask := hinit
    obtain rfl : h = Hist.empty := hempty
    exact Consumer.Follows.start _
  · rintro ⟨ws, h⟩ l ⟨ws', h'⟩ - ih - hst
    obtain ⟨rfl, rfl⟩ := history_step hst
    show consumer.Follows _ (h.received ++ receiving ws l) (step ws l).mute (h.calls ++ calling ws l)
    cases l with
    | send message | sendBinary message | sendPing =>
      simp only [receiving, calling, step, send, sendBinary, sendPing, sendData_mute, List.append_nil]
      exact ih
    | close =>
      simp only [receiving, calling, step, close_mute, List.append_nil]
      exact ih
    | poll io =>
      simp only [receiving, calling, step, poll_mute, List.append_nil]
      exact ih.feed (ws.arriving io)
    | dispatch =>
      have hdispatch := dispatch_mute ws
      simp only [receiving, calling, step, List.append_nil]
      have hnext := ih.drain
      rw [show consumer.drain ws.mute = _ from hdispatch] at hnext
      exact hnext

/-- The callback is called with what the bytes received say, whatever they are: it makes no difference in which
    pieces they came, what was sent in between, when `poll` and `dispatch` were called, and in what state
    the connection is. -/
theorem calls_of_received (useMask : Bool) (ws : WebSocket) (h : Hist)
    (hs : Reachable (historySystem useMask) anyStep (ws, h)) :
    h.calls ++ ws.dispatch.2 = ((init useMask).feed h.received).dispatch.2 := by
  have hfollows : consumer.Follows (init useMask).mute h.received ws.mute h.calls :=
    follows (G := anyStep) hs
  have hcalls := congrArg Prod.snd hfollows
  have hall := congrArg Prod.snd (dispatch_mute ((init useMask).feed h.received))
  have hrest := congrArg Prod.snd (dispatch_mute ws)
  rw [← hall, ← hrest]
  exact hcalls.symm

/-- Two messages and a ping that is not answered any more, in pieces that are cut inside of the headers. -/
def interleaved : List Label :=
  [.poll ⟨[[0x81]], false, [], false⟩, .dispatch, .send [1, 2, 3],
    .poll ⟨[[0x02, 104], [105, 0x89]], false, [4], false⟩, .dispatch, .close,
    .poll ⟨[[0x00, 0x81, 0x01, 33]], true, [], true⟩, .dispatch]

theorem calls_of_received_interleaved :
    ∃ ws h, Reachable (historySystem true) anyStep (ws, h) ∧ h.calls = [[104, 105], [33]] ∧
      ((init true).feed h.received).dispatch.2 = [[104, 105], [33]] := by
  obtain ⟨⟨ws, h⟩, -, hs, hP⟩ := Reachable.of_exec (historySystem true) anyStep (init true, Hist.empty)
    interleaved (fun y => decide (y.2.calls = [[104, 105], [33]] ∧ y.1.dispatch.2 = []))
    ⟨rfl, rfl⟩ (by decide +kernel)
  obtain ⟨hcalls, hnone⟩ := of_decide_eq_true hP
  refine ⟨ws, h, hs, hcalls, ?_⟩
  rw [← calls_of_received true ws h hs, hcalls, hnone]
  rfl

/-! ## The sending side -/

/-- A frame that `sendData` writes for `send`, `sendBinary`, `sendPing` or in answer to a ping. -/
def IsSent (useMask : Bool) (f : WsFrame) : Prop :=
  f.Fits ∧ ∃ type message, f = sent useMask type message ∧
    (type = .textFrame ∨ type = .binaryFrame ∨ type = .ping ∨ type = .pong)

/-- The bytes that are written and those that wait to be written are the frames of all messages accepted,
    with pings and pongs between them, and perhaps one close frame behind them. -/
def Outgoing (ws : WebSocket) (h : Hist) : Prop :=
  ∃ gs last, h.written ++ ws.txbuf = (gs ++ last).flatMap WsFrame.bytes ∧
    (∀ g ∈ gs, IsSent ws.useMask g) ∧ (last = [] ∨ last = [closing] ∧ ws.shut = true) ∧
    h.accepted = messages gs

section
variable {ws ws' : WebSocket} {h h' : Hist}

/-- Nothing is added. -/
theorem Outgoing.same (hout : Outgoing ws h) (hmask : ws'.useMask = ws.useMask)
    (hshut : ws.shut = true → ws'.shut = true) (hbytes : h'.written ++ ws'.txbuf = h.written ++ ws.txbuf)
    (haccepted : h'.accepted = h.accepted) : Outgoing ws' h' := by
  obtain ⟨gs, last, hstream, hgs, hlast, hmsgs⟩ := hout
  exact ⟨gs, last, hbytes.trans hstream, hmask ▸ hgs, hlast.imp_right (And.imp_right hshut),
    haccepted.trans hmsgs⟩

/-- A frame is added: so far there is no close frame. -/
theorem Outgoing.frame (hout : Outgoing ws h) (hopen : ws.shut = false) {g : WsFrame}
    (hg : IsSent ws.useMask g) (hmask : ws'.useMask = ws.useMask) (hwritten : h'.written = h.written)
    (htx : ws'.txbuf = ws.txbuf ++ g.bytes) (haccepted : h'.accepted = h.accepted ++ messages [g]) :
    Outgoing ws' h' := by
  obtain ⟨gs, last, hstream, hgs, hlast, hmsgs⟩ := hout
  obtain rfl : last = [] := hlast.resolve_right fun hclosed => by simp [hopen] at hclosed
  refine ⟨gs ++ [g], [], ?_, ?_, .inl rfl, ?_⟩
  · rw [hwritten, htx, ← List.append_assoc, hstream]
    simp
  · rw [hmask]
    intro f hf
    rcases List.mem_append.mp hf with hf | hf
    · exact hgs f hf
    · exact List.mem_singleton.mp hf ▸ hg
  · rw [haccepted, hmsgs, messages_append]

/-- The close frame is added. -/
theorem Outgoing.closing (hout : Outgoing ws h) (hopen : ws.shut = false) (hshut : ws'.shut = true)
    (hmask : ws'.useMask = ws.useMask) (hwritten : h'.written = h.written)
    (htx : ws'.txbuf = ws.txbuf ++ closing.bytes) (haccepted : h'.accepted = h.accepted) :
    Outgoing ws' h' := by
  obtain ⟨gs, last, hstream, hgs, hlast, hmsgs⟩ := hout
  obtain rfl : last = [] := hlast.resolve_right fun hclosed => by simp [hopen] at hclosed
  refine ⟨gs, [WsFrame.closing], ?_, hmask ▸ hgs, .inr ⟨rfl, hshut⟩, haccepted.trans hmsgs⟩
  rw [hwritten, htx, ← List.append_assoc, hstream]
  simp

theorem Outgoing.close (hout : Outgoing ws h) : Outgoing ws.close h := by
  cases hopen : ws.shut with
  | true => rwa [close_shut hopen]
  | false =>
    obtain ⟨hshut, htx⟩ := close_opened hopen
    refine hout.closing hopen hshut ?_ rfl htx rfl
    unfold WebSocket.close
    split <;> rfl

theorem Outgoing.sendData (hout : Outgoing ws h) (type : OpcodeType) (message : List UInt8)
    (htype : type = .textFrame ∨ type = .binaryFrame ∨ type = .ping ∨ type = .pong)
    (hfits : message.length < 2 ^ 63) :
    Outgoing (ws.sendData type message) { h with
      accepted := h.accepted ++ if ws.shut then [] else messages [sent ws.useMask type message] } := by
  cases hopen : ws.shut with
  | true =>
    rw [sendData_shut hopen]
    exact hout.same rfl id rfl (List.append_nil _)
  | false =>
    refine hout.frame (g := sent ws.useMask type message) hopen ⟨hfits, type, message, rfl, htype⟩ ?_ rfl
      (sendData_opened hopen type message) rfl
    unfold WebSocket.sendData
    split <;> rfl

theorem Outgoing.dispatchRound {calls : List Call} (hout : Outgoing ws h)
    (hround : ws.dispatchRound = some (ws', calls)) : Outgoing ws' h := by
  obtain ⟨-, ⟨-, rfl, -⟩ | ⟨header, hpeek, rfl, -⟩⟩ := dispatchRound_cases hround
  · have hbad : Outgoing { ws with isRxBad := true } h := hout.same rfl id rfl rfl
    exact hbad.close
  · suffices hgot : Outgoing (ws.gotMessage header.fin header.opcode (ws.payload header)).1 h from
      hgot.same rfl id rfl rfl
    have hfits : (ws.payload header).length < 2 ^ 63 := by
      have hN := peek_N_lt hpeek
      unfold WebSocket.payload
      split
      · rw [length_applyMask, List.length_take]
        omega
      · rw [List.length_take]
        omega
    generalize ws.payload header = data at hfits
    rcases header.opcode with _ | _ | _ | _ | _ | _ | _
    case some.continuation | some.textFrame | some.binaryFrame =>
      cases header.fin <;> exact hout.same rfl id rfl rfl
    case none | some.close => exact hout.close
    case some.pong => exact hout
    case some.ping =>
      have hpong := hout.sendData .pong data (by simp) hfits
      exact hpong.same rfl id rfl (by split <;> simp [messages, sent, OpcodeType.isData])

theorem Outgoing.dispatch (hout : Outgoing ws h) : Outgoing ws.dispatch.1 h :=
  Consumer.drain_preserves (C := consumer) (I := fun ws _ => Outgoing ws h)
    (fun _ _ _ _ hout hround => hout.dispatchRound hround) [] hout

end

theorem outgoing (hfits : ∀ ws l, G ws l → fits ws l)
    (hs : Reachable (historySystem useMask) (Guard.past G) (ws, h)) : Outgoing ws h := by
  refine Reachable.invariant (I := fun y => Outgoing y.1 y.2) ?_ ?_ hs
  · rintro ⟨ws, h⟩ ⟨hinit, hempty⟩
    obtain rfl : ws = init useMask := hinit
    obtain rfl : h = Hist.empty := hempty
    exact ⟨[], [], rfl, by simp, .inl rfl, rfl⟩
  · rintro ⟨ws, h⟩ l ⟨ws', h'⟩ - ih hg hst
    obtain ⟨rfl, rfl⟩ := history_step hst
    have hfit := hfits ws l hg
    cases l with
    | send message =>
      refine (ih.sendData .textFrame message (.inl rfl) hfit).same rfl id ?_ ?_
      · simp [record, writing]
        rfl
      · simp [record, accepting, messages, sent, OpcodeType.isData]
    | sendBinary message =>
      refine (ih.sendData .binaryFrame message (.inr (.inl rfl)) hfit).same rfl id ?_ ?_
      · simp [record, writing]
        rfl
      · simp [record, accepting, messages, sent, OpcodeType.isData]
    | sendPing =>
      refine (ih.sendData .ping [] (by simp) (by decide)).same rfl id ?_ ?_
      · simp [record, writing]
        rfl
      · simp [record, accepting, messages, sent, OpcodeType.isData]
    | close => exact ih.close.same rfl id (by simp [record, writing, step]) (by simp [record, accepting])
    | poll io =>
      obtain ⟨tx, state, hws, htx, hstate⟩ := poll_spec ws io
      refine ih.same ?_ ?_ ?_ (by simp [record, accepting])
      · show (ws.poll io).1.useMask = _
        rw [hws]
        rfl
      · show ws.shut = true → (ws.poll io).1.shut = true
        rw [hws]
        rcases hstate with rfl | rfl
        · exact id
        · exact fun _ => rfl
      · show h.written ++ (ws.poll io).2 ++ (ws.poll io).1.txbuf = _
        rw [hws, htx, List.append_assoc]
        rfl
    | dispatch =>
      exact ih.dispatch.same rfl id (by simp [record, writing, step]) (by simp [record, accepting])

/-! ## Both sides -/

/-- A socket at the other end that has received part of what was written has been given part of the messages
    accepted, in order, and all of them if it has received all and nothing waits to be written. -/
theorem received_messages (hout : Outgoing ws h) (peer : WebSocket) {received : List UInt8}
    (hpeer : peer.receivedData = [] ∧ peer.isRxBad = false) (hrx : peer.rxbuf = received)
    (hreceived : received <+: h.written) :
    peer.dispatch.1.isRxBad = false ∧ peer.dispatch.2 <+: h.accepted ∧
      (received = h.written → ws.txbuf = [] → peer.dispatch.2 = h.accepted) := by
  obtain ⟨gs, last, hstream, hgs, hlast, hmsgs⟩ := hout
  have hfits : ∀ f ∈ gs ++ last, f.Fits := by
    intro f hf
    rcases List.mem_append.mp hf with hf | hf
    · exact (hgs f hf).1
    · rcases hlast with rfl | ⟨rfl, -⟩
      · exact absurd hf (by simp)
      · rw [List.mem_singleton.mp hf]
        decide
  have hfin : ∀ f ∈ gs ++ last, f.fin = true := by
    intro f hf
    rcases List.mem_append.mp hf with hf | hf
    · obtain ⟨-, type, message, rfl, -⟩ := hgs f hf
      rfl
    · rcases hlast with rfl | ⟨rfl, -⟩
      · exact absurd hf (by simp)
      · rw [List.mem_singleton.mp hf]
        rfl
  have hall : messages (gs ++ last) = h.accepted := by
    rw [messages_append, hmsgs]
    rcases hlast with rfl | ⟨rfl, -⟩
    · exact List.append_nil _
    · exact List.append_nil _
  -- what `dispatch` makes of a part of the stream that begins with whole frames
  have hdispatch : ∀ fs part, (∀ f ∈ fs, f ∈ gs ++ last) → Begun part →
      received = fs.flatMap WsFrame.bytes ++ part →
      peer.dispatch.1.isRxBad = false ∧ peer.dispatch.2 = messages fs := by
    intro fs part hsub hpart heq
    have hframes := dispatch_frames peer hpeer.2 (fun f hf => hfits f (hsub f hf)) hpart
      (hrx.trans heq)
    have hcalls := (receive_calls peer fs).1
    rw [hpeer.1, reassemble_fin fun f hf => hfin f (hsub f hf)] at hcalls
    rw [hframes]
    exact ⟨(receive_isRxBad peer fs).trans hpeer.2, hcalls⟩
  have hpre : received <+: (gs ++ last).flatMap WsFrame.bytes :=
    hreceived.trans (hstream ▸ List.prefix_append _ _)
  obtain ⟨fs, rest, part, hsplit, heq, hpart⟩ := frames_of_prefix hpre
  obtain ⟨hbad, hcalls⟩ :=
    hdispatch fs part (fun f hf => hsplit ▸ List.mem_append_left _ hf) (hpart.begun hfits) heq
  refine ⟨hbad, ?_, ?_⟩
  · rw [hcalls, ← hall, hsplit, messages_append]
    exact List.prefix_append _ _
  · intro hwritten htx
    have hwhole : received = (gs ++ last).flatMap WsFrame.bytes ++ [] := by
      rw [hwritten, ← hstream, htx, List.append_nil, List.append_nil]
    rw [(hdispatch (gs ++ last) [] (fun _ hf => hf) (.inl rfl) hwhole).2, hall]

end Endpoint
end Epidemica
