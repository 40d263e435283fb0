import Epidemica.Lib.Fairness
import Epidemica.WebSocket.Monitor
import Mathlib.Dynamics.PeriodicPts.Defs

/-!
# `WebSocket.Arrival` — in the end the monitor is shown everything

A string that is pushed has only finitely many strings in front of it in the queue and finitely many bytes in
front of it in `txbuf`: nothing that comes later is put in front. So it arrives, whatever the other end sends
in the meantime, as long as the runner goes on, the socket stays open and the connection takes bytes again and
again (`WsClient.Lasting.arrives`). The versions of a node arrive with it, if its calls of
`ExecuteTransaction` come to their end and do not overlap (`Monitor.monitor_shown_all`).
-/

namespace Epidemica

open Incremental Transition WsFrame

/-! ## The stream of bytes -/

namespace WebSocket

variable {ws ws' : WebSocket}

theorem sendData_txbuf (ws : WebSocket) (type : OpcodeType) (message : List UInt8) :
    ws.txbuf <+: (ws.sendData type message).txbuf := by
  cases h : ws.shut with
  | true => rw [sendData_shut h]
  | false =>
    rw [sendData_opened h]
    exact List.prefix_append _ _

theorem close_txbuf (ws : WebSocket) : ws.txbuf <+: ws.close.txbuf := by
  cases h : ws.shut with
  | true => rw [close_shut h]
  | false =>
    rw [(close_opened h).2]
    exact List.prefix_append _ _

theorem dispatch_txbuf (ws : WebSocket) : ws.txbuf <+: ws.dispatch.1.txbuf := by
  refine Consumer.drain_preserves (C := consumer) (I := fun t _ => ws.txbuf <+: t.txbuf) ?_ [] List.prefix_rfl
  intro s t _ calls hold hround
  obtain ⟨-, ⟨-, rfl, -⟩ | ⟨header, -, rfl, -⟩⟩ := dispatchRound_cases hround
  · exact hold.trans (close_txbuf { s with isRxBad := true })
  · obtain ⟨-, htx, -⟩ := gotMessage_answer s header.fin header.opcode (s.payload header)
    refine hold.trans ?_
    show s.txbuf <+: (s.gotMessage header.fin header.opcode (s.payload header)).1.txbuf
    rw [htx]
    exact List.prefix_append _ _

end WebSocket

namespace Endpoint

open WebSocket

variable {ws : WebSocket} {h : Hist}

/-- What is written and what waits only gets more, at its end. -/
theorem stream_grows (ws : WebSocket) (l : Label) (h : Hist) :
    h.written ++ ws.txbuf <+: (record ws l h).written ++ (step ws l).txbuf := by
  have hquiet : ∀ t, ws.txbuf <+: t → h.written ++ ws.txbuf <+: h.written ++ [] ++ t := by
    intro t ht
    rw [List.append_nil]
    exact (List.prefix_append_right_inj _).mpr ht
  cases l with
  | send message => exact hquiet _ (sendData_txbuf ws .textFrame message)
  | sendBinary message => exact hquiet _ (sendData_txbuf ws .binaryFrame message)
  | sendPing => exact hquiet _ (sendData_txbuf ws .ping [])
  | close => exact hquiet _ (close_txbuf ws)
  | dispatch => exact hquiet _ (dispatch_txbuf ws)
  | poll io =>
    obtain ⟨tx, state, hws, htx, -⟩ := poll_spec ws io
    show h.written ++ ws.txbuf <+: h.written ++ (ws.poll io).2 ++ (ws.poll io).1.txbuf
    rw [hws, htx, List.append_assoc]
    exact List.prefix_rfl

/-- A peer that has received all that waited at some time, and perhaps more, has been given what was accepted
    then. -/
theorem accepted_received (hout : Outgoing ws h) {received : List UInt8}
    (hreceived : h.written ++ ws.txbuf <+: received) (mask : Bool) :
    h.accepted <+: ((init mask).feed received).dispatch.2 := by
  obtain ⟨rest, rfl⟩ := hreceived
  -- as if everything had been written at that time
  have hwritten : Outgoing { ws with txbuf := [] } { h with written := h.written ++ ws.txbuf } :=
    hout.same rfl id (List.append_nil _) rfl
  have hall := (received_messages hwritten ((init mask).feed (h.written ++ ws.txbuf)) ⟨rfl, rfl⟩ rfl
    List.prefix_rfl).2.2 rfl rfl
  have hmore := Consumer.drain_feed (C := consumer) ((init mask).feed (h.written ++ ws.txbuf)) rest
  have hcalls := congrArg Prod.snd hmore
  have hfeed : consumer.feed ((init mask).feed (h.written ++ ws.txbuf)) rest =
      (init mask).feed (h.written ++ ws.txbuf ++ rest) := consumer.feed_append (init mask) _ _
  rw [hfeed] at hcalls
  show _ <+: (consumer.drain ((init mask).feed (h.written ++ ws.txbuf ++ rest))).2
  rw [hcalls]
  exact hall ▸ List.prefix_append _ _

end Endpoint

/-! ## The runner's turns -/

namespace RunnerPc

/-- How many statements the runner is away from sending, if there is something to send. -/
def distance : RunnerPc → Nat
  | .pop => 1
  | .testState => 2
  | .whileRunning => 3
  | .dispatch => 4
  | .poll => 5
  | .send _ | .close | .lastPoll | .done => 0

/-- In the loop. -/
def looping : RunnerPc → Bool
  | .close | .lastPoll | .done => false
  | .whileRunning | .testState | .pop | .send _ | .poll | .dispatch => true

end RunnerPc

namespace WsClient

variable {useMask : Bool} {c c' : WebSocketClient} {h h' : Hist}

/-- What a step leaves of what was there. -/
structure Onward (x y : WebSocketClient × Hist) : Prop where
  pushed : x.2.pushed <+: y.2.pushed
  written : x.2.socket.written <+: y.2.socket.written
  stream : x.2.socket.written ++ x.1.ws.txbuf <+: y.2.socket.written ++ y.1.ws.txbuf

theorem Onward.refl (x : WebSocketClient × Hist) : Onward x x :=
  ⟨List.prefix_rfl, List.prefix_rfl, List.prefix_rfl⟩

theorem Onward.trans {x y z : WebSocketClient × Hist} (h₁ : Onward x y) (h₂ : Onward y z) : Onward x z :=
  ⟨h₁.pushed.trans h₂.pushed, h₁.written.trans h₂.written, h₁.stream.trans h₂.stream⟩

theorem onward {l : Label} (hst : step c l = some c') : Onward (c, h) (c', record c l h) := by
  cases l with
  | push s =>
    obtain rfl := Option.some.inj hst
    exact ⟨List.prefix_append _ _, List.prefix_rfl, List.prefix_rfl⟩
  | recv | stop =>
    obtain rfl := Option.some.inj hst
    exact ⟨List.prefix_rfl, List.prefix_rfl, List.prefix_rfl⟩
  | runner io =>
    obtain ⟨-, rfl⟩ := step_runner hst
    have hws := runner_ws c io
    cases hop : c.socketOp io with
    | none =>
      rw [hop] at hws
      refine ⟨?_, ?_, ?_⟩ <;> simp only [record, hop, hws]
      · exact List.prefix_rfl
      · exact List.prefix_rfl
      · exact List.prefix_rfl
    | some op =>
      rw [hop] at hws
      refine ⟨?_, ?_, ?_⟩ <;> simp only [record, hop, hws]
      · exact List.prefix_rfl
      · exact List.prefix_append _ _
      · exact Endpoint.stream_grows c.ws op h.socket

/-- With something to send, a statement of the loop takes the runner closer to sending, or sends. -/
theorem runner_distance (io : WebSocket.PollCalls) (h : Hist) (hpc : c.pc.looping = true)
    (hrun : c.m_Running = true) (hopen : c.ws.shut = false) (hqueue : c.pc = .pop → c.m_Outgoing ≠ []) :
    ((c.runner io).pc.distance < c.pc.distance ∧
        (record c (.runner io) h).socket.accepted.length = h.socket.accepted.length) ∨
      (c.pc.distance = 0 ∧ (c.runner io).pc.distance = 5 ∧
        (record c (.runner io) h).socket.accepted.length = h.socket.accepted.length + 1) := by
  obtain ⟨out, inc, run, ws, pc⟩ := c
  obtain rfl : run = true := hrun
  cases pc with
  | close | lastPoll | done => exact absurd hpc (by simp [RunnerPc.looping])
  | whileRunning => exact Or.inl ⟨Nat.lt_succ_self 2, rfl⟩
  | testState =>
    have hstate : ws.readyState ≠ .closed := by
      intro hclosed
      have hopen : ws.shut = false := hopen
      simp [WebSocket.shut, hclosed] at hopen
    refine Or.inl ⟨?_, rfl⟩
    simp [WebSocketClient.runner, hstate, RunnerPc.distance]
  | pop =>
    obtain ⟨data, rest, rfl⟩ := List.exists_cons_of_ne_nil (hqueue rfl)
    exact Or.inl ⟨Nat.lt_succ_self 0, rfl⟩
  | poll => exact Or.inl ⟨Nat.lt_succ_self 4, congrArg List.length (List.append_nil _)⟩
  | dispatch => exact Or.inl ⟨Nat.lt_succ_self 3, congrArg List.length (List.append_nil _)⟩
  | send data =>
    refine Or.inr ⟨rfl, rfl, ?_⟩
    have hopen : ws.shut = false := hopen
    simp [record, WebSocketClient.socketOp, Endpoint.record, Endpoint.accepting, hopen]

/-- The runner stays in its loop. -/
theorem runner_looping {io : WebSocket.PollCalls} (hpc : c.pc.looping = true) (hrun : c.m_Running = true)
    (hopen : c.ws.shut = false) : (c.runner io).pc.looping = true := by
  obtain ⟨out, inc, run, ws, pc⟩ := c
  obtain rfl : run = true := hrun
  cases pc with
  | close | lastPoll | done => exact absurd hpc (by simp [RunnerPc.looping])
  | testState =>
    have hstate : ws.readyState ≠ .closed := by
      intro hclosed
      have hopen : ws.shut = false := hopen
      simp [WebSocket.shut, hclosed] at hopen
    simp [WebSocketClient.runner, hstate, RunnerPc.looping]
  | pop => cases out <;> rfl
  | whileRunning | send data | poll | dispatch => rfl

/-! ## Along a path -/

/-- The runner goes on for ever with an open socket, and as long as bytes wait the connection takes some in
    the end. -/
structure Lasting (ρ : Path (historySystem useMask) (Guard.past fits)) : Prop where
  turns : ∀ i, ∃ j, i ≤ j ∧ ∃ io, ρ.label j = some (.runner io)
  running : ∀ i, (ρ.state i).1.m_Running = true
  opened : ∀ i, (ρ.state i).1.ws.shut = false
  takes : ∀ i, ∃ j, i ≤ j ∧ ((ρ.state j).1.ws.txbuf = [] ∨
    (ρ.state j).2.socket.written.length < (ρ.state (j + 1)).2.socket.written.length)

section
variable {ρ : Path (historySystem useMask) (Guard.past fits)}

theorem path_onward (ρ : Path (historySystem useMask) (Guard.past fits)) {i j : ℕ} (hij : i ≤ j) :
    Onward (ρ.state i) (ρ.state j) := by
  induction j, hij using Nat.le_induction with
  | base => exact Onward.refl _
  | succ j _ ih =>
    refine ih.trans (ρ.next (R := Onward) Onward.refl ?_ j)
    rintro ⟨c, h⟩ l ⟨c', h'⟩ - - hst
    obtain ⟨hmove, rfl⟩ := history_step hst
    exact onward hmove

theorem path_looping (hlast : Lasting ρ) (i : ℕ) : (ρ.state i).1.pc.looping = true := by
  induction i with
  | zero =>
    obtain ⟨hinit, -⟩ := ρ.init
    rw [hinit]
    rfl
  | succ i ih =>
    cases hl : ρ.label i with
    | none => rwa [ρ.still hl]
    | some l =>
      obtain ⟨hst, -⟩ := history_step (ρ.taken hl).2
      cases l with
      | push _ | recv | stop => exact Option.some.inj hst ▸ ih
      | runner io =>
        obtain ⟨-, hnext⟩ := step_runner hst
        rw [hnext]
        exact runner_looping ih (hlast.running i) (hlast.opened i)

/-- What has been pushed is accepted in the end. -/
theorem Lasting.accepted (hlast : Lasting ρ) (i : ℕ) :
    ∃ j, i ≤ j ∧ (ρ.state i).2.pushed <+: (ρ.state j).2.socket.accepted := by
  have hqueue (j : ℕ) : (ρ.state j).2.socket.accepted ++ (ρ.state j).1.inHand ++ (ρ.state j).1.m_Outgoing =
      (ρ.state j).2.pushed := by
    obtain ⟨⟨sent, hsent, -, hopen⟩, -, -⟩ := queueInv (fun _ _ h => h) (ρ.reachable j)
    rw [hopen (hlast.opened j)]
    exact hsent
  let n := (ρ.state i).2.pushed.length
  let m (j : ℕ) : ℕ := (n - (ρ.state j).2.socket.accepted.length) * 6 + (ρ.state j).1.pc.distance
  -- a turn makes the measure smaller, and nothing else changes it
  have hturn : ∀ j, i ≤ j → ¬ n ≤ (ρ.state j).2.socket.accepted.length →
      (∃ io, ρ.label j = some (.runner io)) ∧ m (j + 1) < m j ∨
        (¬ ∃ io, ρ.label j = some (.runner io)) ∧ m (j + 1) = m j := by
    intro j hij hless
    cases hl : ρ.label j with
    | none =>
      refine Or.inr ⟨by simp, ?_⟩
      show (n - (ρ.state (j + 1)).2.socket.accepted.length) * 6 + (ρ.state (j + 1)).1.pc.distance = _
      rw [ρ.still hl]
    | some l =>
      obtain ⟨hst, hrecord⟩ := history_step (ρ.taken hl).2
      cases l with
      | push _ | recv | stop =>
        refine Or.inr ⟨by simp, ?_⟩
        show (n - (ρ.state (j + 1)).2.socket.accepted.length) * 6 + (ρ.state (j + 1)).1.pc.distance = _
        rw [hrecord, ← Option.some.inj hst]
        rfl
      | runner io =>
        refine Or.inl ⟨⟨io, rfl⟩, ?_⟩
        have hnext : (ρ.state (j + 1)).1 = (ρ.state j).1.runner io := (step_runner hst).2
        have hhist : (ρ.state (j + 1)).2 = record (ρ.state j).1 (.runner io) (ρ.state j).2 := hrecord
        have hsome : (ρ.state j).1.pc = .pop → (ρ.state j).1.m_Outgoing ≠ [] := by
          intro hpop hnil
          have hall := congrArg List.length (hqueue j)
          have hhand : (ρ.state j).1.inHand = [] := by
            unfold WebSocketClient.inHand
            rw [hpop]
          have hmore := (path_onward ρ hij).pushed.length_le
          rw [hhand, hnil, List.append_nil, List.append_nil] at hall
          omega
        have hmove := runner_distance io (ρ.state j).2 (path_looping hlast j) (hlast.running j)
          (hlast.opened j) hsome
        show (n - (ρ.state (j + 1)).2.socket.accepted.length) * 6 + (ρ.state (j + 1)).1.pc.distance < _
        rw [hhist, hnext]
        show _ < (n - (ρ.state j).2.socket.accepted.length) * 6 + (ρ.state j).1.pc.distance
        omega
  obtain ⟨j, hij, hall⟩ := Path.descends (i := i) (Q := fun j => n ≤ (ρ.state j).2.socket.accepted.length)
    (fun j _ => hlast.turns j) m
    (fun j hij hless => (hturn j hij hless).elim (fun h => h.2.le) (fun h => h.2.le))
    (fun j hij hless ht => ((hturn j hij hless).resolve_right fun h => h.1 ht).2)
  refine ⟨j, hij, List.prefix_of_prefix_length_le (path_onward ρ hij).pushed ?_ hall⟩
  rw [← hqueue j, List.append_assoc]
  exact List.prefix_append _ _

/-- What waits is written in the end. -/
theorem Lasting.flushed (hlast : Lasting ρ) (i : ℕ) :
    ∃ j, i ≤ j ∧ ∀ k, j ≤ k →
      (ρ.state i).2.socket.written ++ (ρ.state i).1.ws.txbuf <+: (ρ.state k).2.socket.written := by
  let stream (j : ℕ) : List UInt8 := (ρ.state j).2.socket.written ++ (ρ.state j).1.ws.txbuf
  obtain ⟨j, hij, hall⟩ := Path.descends (i := i)
    (Q := fun j => (stream i).length ≤ (ρ.state j).2.socket.written.length)
    (fun j _ => hlast.takes j) (fun j => (stream i).length - (ρ.state j).2.socket.written.length)
    (fun j _ _ => by
      have hmore := (path_onward ρ (show j ≤ j + 1 by omega)).written.length_le
      show _ - (ρ.state (j + 1)).2.socket.written.length ≤ _
      omega)
    (fun j hij hless ht => by
      rcases ht with hnone | hmore
      · -- with nothing waiting all is written
        have hlong := (path_onward ρ hij).stream.length_le
        rw [hnone, List.append_nil] at hlong
        exact absurd hlong hless
      · omega)
  refine ⟨j, hij, fun k hjk => ?_⟩
  have hwritten := (path_onward ρ hjk).written.length_le
  refine List.prefix_of_prefix_length_le (path_onward ρ (hij.trans hjk)).stream (List.prefix_append _ _) ?_
  exact Nat.le_trans hall hwritten

/-- What has been pushed arrives, and stays. -/
theorem Lasting.arrives (hlast : Lasting ρ) (mask : Bool) (i : ℕ) :
    ∃ j, i ≤ j ∧ ∀ k, j ≤ k → (ρ.state i).2.pushed <+:
      ((WebSocket.init mask).feed (ρ.state k).2.socket.written).dispatch.2 := by
  obtain ⟨j, hij, haccepted⟩ := hlast.accepted i
  obtain ⟨k, hjk, hflushed⟩ := hlast.flushed j
  have hout := Endpoint.outgoing (fun _ _ h => h) (reachable_socket (fun _ _ h => h) (ρ.reachable j))
  exact ⟨k, hij.trans hjk, fun l hkl =>
    haccepted.trans (Endpoint.accepted_received hout (hflushed l hkl) mask)⟩

end

end WsClient

/-! ## The monitor -/

namespace Monitor

/-- What a step of a node is for its client. -/
def clientLabel (s : State) : Label → Option WsClient.Label
  | .execute _ => none
  | .call i =>
    match s.calls[i]? with
    | some (.send x) => some (.push x)
    | _ => none
  | .client l => some l

/-- What the client of a node does. -/
def clientView (name : List Char) (hname : name.length + 13 < 2 ^ 63) :
    Lockstep (historySystem name) (Guard.past alone) (WsClient.historySystem true)
      (Guard.past WsClient.fits) where
  abs x := (x.1.client, x.2.client)
  label x := clientLabel x.1
  init := by
    rintro ⟨s, h⟩ ⟨hinit, hempty⟩
    obtain rfl : s = ⟨⟨0⟩, [], WebSocketClient.init true⟩ := hinit
    obtain rfl : h = Hist.empty := hempty
    exact ⟨rfl, rfl⟩
  step := by
    rintro ⟨s, h⟩ l ⟨t, k⟩ hr - hst
    obtain ⟨hmove, rfl⟩ := history_step hst
    cases l with
    | execute d =>
      obtain rfl := Option.some.inj hmove
      rfl
    | call i =>
      rcases step_call hmove with ⟨hi, rfl⟩ | ⟨x, hi, rfl⟩
      · simp only [clientLabel, hi, record]
        rfl
      · have hfits := (nodeInv hname hr).send_fits hname hi
        simp only [clientLabel, hi, record]
        exact ⟨hfits, withHistory_step.mpr ⟨rfl, rfl⟩⟩
    | client l =>
      obtain ⟨hown, c, hc, rfl⟩ := step_client hmove
      exact ⟨fits_own hown, withHistory_step.mpr ⟨hc, rfl⟩⟩

variable {name : List Char}

/-- The calls of `ExecuteTransaction` come to their end, the runner of the node's client goes on for ever with
    an open socket, and as long as bytes wait the connection takes some in the end. -/
structure Lasting (ρ : Path (historySystem name) (Guard.past alone)) : Prop where
  returns : ∀ i, ∃ j, i ≤ j ∧ (ρ.state j).1.calls = []
  turns : ∀ i, ∃ j, i ≤ j ∧ ∃ io, ρ.label j = some (.client (.runner io))
  running : ∀ i, (ρ.state i).1.client.m_Running = true
  opened : ∀ i, (ρ.state i).1.client.ws.shut = false
  takes : ∀ i, ∃ j, i ≤ j ∧ ((ρ.state j).1.client.ws.txbuf = [] ∨
    (ρ.state j).2.client.socket.written.length < (ρ.state (j + 1)).2.client.socket.written.length)

theorem Lasting.image {ρ : Path (historySystem name) (Guard.past alone)} (hlast : Lasting ρ)
    (hname : name.length + 13 < 2 ^ 63) : WsClient.Lasting (ρ.image (clientView name hname)) := by
  refine ⟨?_, hlast.running, hlast.opened, hlast.takes⟩
  intro i
  obtain ⟨j, hij, io, hl⟩ := hlast.turns i
  refine ⟨j, hij, io, ?_⟩
  show (ρ.label j).bind _ = _
  rw [hl]
  rfl

/-- What has been executed is never taken back. -/
theorem path_executed (ρ : Path (historySystem name) (Guard.past alone)) {i j : ℕ} (hij : i ≤ j) :
    (ρ.state i).2.executed <+: (ρ.state j).2.executed := by
  induction j, hij using Nat.le_induction with
  | base => exact List.prefix_rfl
  | succ j _ ih =>
    refine ih.trans (ρ.next (R := fun x y => x.2.executed <+: y.2.executed) (fun _ => List.prefix_rfl) ?_ j)
    rintro ⟨s, h⟩ l ⟨t, k⟩ - - hst
    obtain ⟨-, rfl⟩ := history_step hst
    cases l with
    | execute d => exact List.prefix_append _ _
    | call i =>
      show h.executed <+: (record s (.call i) h).executed
      unfold record
      dsimp only
      split <;> exact List.prefix_rfl
    | client l => exact List.prefix_rfl

/-- In the end the monitor is shown everything: in every run in which no two calls that change the version
    overlap, in whatever order the statements of the calls and of the runner and the arrival of bytes come, if
    the calls come to their end and the runner goes on with an open socket that takes bytes again and again,
    then for every transaction that is executed there is a time from which on the monitor has been shown the
    versions up to it, in order, and never anything but versions of the node in order. -/
theorem monitor_shown_all (hname : name.length + 13 < 2 ^ 63)
    (ρ : Path (historySystem name) (Guard.past alone)) (hlast : Lasting ρ) (mask : Bool) (i : ℕ) :
    ∃ j, i ≤ j ∧ ∀ k, j ≤ k →
      log name ⟨0⟩ (ρ.state i).2.executed <+:
          ((WebSocket.init mask).feed (ρ.state k).2.client.socket.written).dispatch.2 ∧
        ((WebSocket.init mask).feed (ρ.state k).2.client.socket.written).dispatch.2 <+:
          log name ⟨0⟩ (ρ.state k).2.executed := by
  -- what has been executed is pushed when the calls have come to their end
  obtain ⟨m, him, hcalls⟩ := hlast.returns i
  have hpushed : (ρ.state m).2.client.pushed = log name ⟨0⟩ (ρ.state m).2.executed := by
    have hlog := (nodeInv hname (ρ.reachable m)).pushed
    rwa [unsent, hcalls, List.map_nil, List.append_nil] at hlog
  obtain ⟨j, hmj, hshown⟩ := (hlast.image hname).arrives mask m
  refine ⟨j, him.trans hmj, fun k hjk => ⟨?_, ?_⟩⟩
  · refine (log_mono name ⟨0⟩ (path_executed ρ him)).trans ?_
    rw [← hpushed]
    exact hshown k hjk
  · exact (monitor_shown hname (ρ.reachable k) mask List.prefix_rfl).1

/-! ### A run -/

/-- A poll in which the connection takes up to ten bytes. -/
def tenBytes : WebSocket.PollCalls := ⟨[], false, [10], false⟩

/-- A statement of the runner. -/
def turn (x : State × Hist) : State × Hist :=
  ({ x.1 with client := x.1.client.runner tenBytes },
    { x.2 with client := WsClient.record x.1.client (.runner tenBytes) x.2.client })

/-- The node has added `5`, and the call has returned. -/
def addFive : State × Hist :=
  (⟨⟨5⟩, [], send (WebSocketClient.init true) [text ['N'] 5]⟩,
    ⟨[⟨.sum, 5⟩], { WsClient.Hist.empty with pushed := [text ['N'] 5] }⟩)

/-- The runner is in its loop, with an open socket. -/
def working (x : State × Hist) : Bool :=
  x.1.client.pc.looping && x.1.client.m_Running && !x.1.client.ws.shut

/-- After one loop the frame is written, and every loop after it is like the one before. -/
theorem addFive_periodic : Function.IsPeriodicPt turn 5 (turn^[6] addFive) := by
  show turn^[5] (turn^[6] addFive) = turn^[6] addFive
  decide +kernel

theorem iterate_addFive (n : ℕ) : turn^[6 + n] addFive = turn^[n % 5] (turn^[6] addFive) := by
  rw [addFive_periodic.iterate_mod_apply, Nat.add_comm, Function.iterate_add_apply]

theorem working_addFive (n : ℕ) : working (turn^[n] addFive) = true := by
  have hfirst : ∀ n < 6, working (turn^[n] addFive) = true := by decide +kernel
  have hloop : ∀ r < 5, working (turn^[r] (turn^[6] addFive)) = true := by decide +kernel
  by_cases hn : n < 6
  · exact hfirst n hn
  · obtain ⟨m, rfl⟩ := Nat.exists_eq_add_of_le (Nat.le_of_not_lt hn)
    rw [iterate_addFive]
    exact hloop _ (Nat.mod_lt m (by omega))

/-- The node adds `5`, and when the call has returned its runner alone goes on. -/
def addFivePath : Path (historySystem ['N']) (Guard.past alone) where
  state
    | 0 => (⟨⟨0⟩, [], WebSocketClient.init true⟩, Hist.empty)
    | 1 => (⟨⟨5⟩, [.getVersion], WebSocketClient.init true⟩, ⟨[⟨.sum, 5⟩], WsClient.Hist.empty⟩)
    | 2 => (⟨⟨5⟩, [.send (text ['N'] 5)], WebSocketClient.init true⟩, ⟨[⟨.sum, 5⟩], WsClient.Hist.empty⟩)
    | i + 3 => turn^[i] addFive
  label
    | 0 => some (.execute ⟨.sum, 5⟩)
    | 1 | 2 => some (.call 0)
    | _ + 3 => some (.client (.runner tenBytes))
  init := ⟨rfl, rfl⟩
  moves
    | 0 => ⟨Or.inr rfl, by decide⟩
    | 1 | 2 => ⟨trivial, by decide⟩
    | i + 3 => by
      have hwork := working_addFive i
      have hpc : (turn^[i] addFive).1.client.pc ≠ .done := by
        intro hdone
        simp [working, hdone, RunnerPc.looping] at hwork
      refine ⟨trivial, ?_⟩
      show (historySystem ['N']).step (turn^[i] addFive) _ = some (turn^[i + 1] addFive)
      rw [Function.iterate_succ_apply']
      refine withHistory_step.mpr ⟨?_, rfl⟩
      show (WsClient.step _ _).map _ = _
      rw [WsClient.step, if_neg hpc]
      rfl

/-- The runner makes no calls. -/
theorem calls_turn (n : ℕ) : (turn^[n] addFive).1.calls = [] := by
  induction n with
  | zero => rfl
  | succ n ih =>
    rw [Function.iterate_succ_apply']
    exact ih

theorem lasting_addFivePath : Lasting addFivePath where
  returns i := ⟨i + 3, by omega, calls_turn i⟩
  turns i := ⟨i + 3, by omega, tenBytes, rfl⟩
  running
    | 0 | 1 | 2 => rfl
    | i + 3 => by
      have hwork := working_addFive i
      simp only [working, Bool.and_eq_true] at hwork
      exact hwork.1.2
  opened
    | 0 | 1 | 2 => rfl
    | i + 3 => by
      have hwork := working_addFive i
      simp only [working, Bool.and_eq_true, Bool.not_eq_true'] at hwork
      exact hwork.2
  takes i := by
    have hloop : ∀ r < 5, (turn^[r] (turn^[6] addFive)).1.client.ws.txbuf = [] := by decide +kernel
    refine ⟨6 + i + 3, by omega, Or.inl ?_⟩
    show (turn^[6 + i] addFive).1.client.ws.txbuf = []
    rw [iterate_addFive]
    exact hloop _ (Nat.mod_lt i (by omega))

/-- Its monitor is shown "N: 5" in the end. -/
theorem monitor_shown_all_addFivePath : ∃ j, ∀ k, j ≤ k →
    [[78, 58, 32, 53]] <+:
      ((WebSocket.init false).feed (addFivePath.state k).2.client.socket.written).dispatch.2 := by
  have hname : ['N'].length + 13 < 2 ^ 63 := by decide
  obtain ⟨j, -, hshown⟩ := monitor_shown_all hname addFivePath lasting_addFivePath false 1
  exact ⟨j, fun k hjk => (hshown k hjk).1⟩

end Monitor
end Epidemica
