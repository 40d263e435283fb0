import Epidemica.WebSocket.Endpoint

/-!
# `WebSocket.WsClient` — the thread that owns the socket

`WebSocketClient` lets any number of threads push strings and pop what has arrived, and one thread, started
by the constructor, works on the socket: in each turn of its loop it takes one string off the outgoing queue,
polls, and dispatches into the incoming queue, until it is stopped or the socket is closed. What reaches
the other end is what was pushed, in order, up to some place (`pushed_delivered`), and what `Recv` returns is
what the callback was called with (`QueueInv`).
-/

namespace Epidemica

open Incremental Transition WebSocket

/-- Where the runner is; a string that it has taken is in its hand until it is sent. -/
inductive RunnerPc where
  | whileRunning | testState | pop | send (data : Call) | poll | dispatch | close | lastPoll | done
  deriving DecidableEq, Repr

/-- The queues of a client, its flag, its socket, and where its runner is. -/
structure WebSocketClient where
  m_Outgoing : List Call
  m_Incoming : List Call
  m_Running : Bool
  ws : WebSocket
  pc : RunnerPc
  deriving DecidableEq, Repr

namespace WebSocketClient

/-- After `from_url` has returned a socket. -/
def init (useMask : Bool) : WebSocketClient := ⟨[], [], true, WebSocket.init useMask, .whileRunning⟩

/-- The operation on the socket in the runner's next statement. -/
def socketOp (c : WebSocketClient) (io : PollCalls) : Option Endpoint.Label :=
  match c.pc with
  | .send data => some (.send data)
  | .poll | .lastPoll => some (.poll io)
  | .dispatch => some .dispatch
  | .close => some .close
  | .whileRunning | .testState | .pop | .done => none

/-- The runner's next statement; `io` is what the socket does if it is a poll. -/
def runner (c : WebSocketClient) (io : PollCalls) : WebSocketClient :=
  match c.pc with
  | .whileRunning => { c with pc := if c.m_Running then .testState else .close }
  | .testState => { c with pc := if c.ws.readyState = .closed then .close else .pop }
  | .pop =>
    match c.m_Outgoing with
    | [] => { c with pc := .poll }
    | data :: rest => { c with m_Outgoing := rest, pc := .send data }
  | .send data => { c with ws := c.ws.send data, pc := .poll }
  | .poll => { c with ws := (c.ws.poll io).1, pc := .dispatch }
  | .dispatch =>
    { c with
      ws := c.ws.dispatch.1
      m_Incoming := c.m_Incoming ++ c.ws.dispatch.2
      pc := .whileRunning }
  | .close => { c with ws := c.ws.close, pc := .lastPoll }
  | .lastPoll => { c with ws := (c.ws.poll io).1, pc := .done }
  | .done => c

/-- The string in the runner's hand. -/
def inHand (c : WebSocketClient) : List Call :=
  match c.pc with
  | .send data => [data]
  | _ => []

end WebSocketClient

namespace WsClient

/-- The calls of other threads, and the statements of the runner. -/
inductive Label where
  /-- `Send`. -/
  | push (s : Call)
  /-- `Recv`. -/
  | recv
  /-- `Close`, and the destructor. -/
  | stop
  /-- The runner executes its next statement. -/
  | runner (io : PollCalls)
  deriving DecidableEq, Repr

/-- A step of a client. -/
def step (c : WebSocketClient) : Label → Option WebSocketClient
  | .push s => some { c with m_Outgoing := c.m_Outgoing ++ [s] }
  | .recv => some { c with m_Incoming := c.m_Incoming.tail }
  | .stop => some { c with m_Running := false }
  | .runner io => if c.pc = .done then none else some (c.runner io)

/-- A client whose socket has just been connected. -/
def system (useMask : Bool) : System WebSocketClient Label :=
  ⟨fun c => c = WebSocketClient.init useMask, step⟩

/-- What has passed through the socket, and through the queues. -/
structure Hist where
  socket : Endpoint.Hist
  pushed : List Call
  /-- What `Recv` has returned. -/
  popped : List Call
  deriving DecidableEq, Repr

/-- Nothing has passed through. -/
def Hist.empty : Hist := ⟨Endpoint.Hist.empty, [], []⟩

/-- What a step adds to the history. -/
def record (c : WebSocketClient) (l : Label) (h : Hist) : Hist :=
  match l with
  | .push s => { h with pushed := h.pushed ++ [s] }
  | .recv => { h with popped := h.popped ++ c.m_Incoming.take 1 }
  | .stop => h
  | .runner io =>
    match c.socketOp io with
    | none => h
    | some op => { h with socket := Endpoint.record c.ws op h.socket }

/-- A client with its history. -/
def historySystem (useMask : Bool) : System (WebSocketClient × Hist) Label :=
  (system useMask).withHistory Hist.empty record

/-- The strings that are pushed have sizes a string can have. -/
def fits : Guard WebSocketClient Label
  | _, .push s => s.length < 2 ^ 63
  | _, _ => True

instance : ∀ c l, Decidable (fits c l)
  | _, .push s => inferInstanceAs (Decidable (s.length < 2 ^ 63))
  | _, .recv | _, .stop | _, .runner _ => isTrue trivial

section
variable {useMask : Bool} {G : Guard WebSocketClient Label} {c c' : WebSocketClient} {h h' : Hist}

theorem history_step {l : Label} (hst : (historySystem useMask).step (c, h) l = some (c', h')) :
    step c l = some c' ∧ h' = record c l h :=
  withHistory_step.mp hst

theorem step_runner {io : PollCalls} (hst : step c (.runner io) = some c') :
    c.pc ≠ .done ∧ c' = c.runner io := by
  simp only [step] at hst
  split at hst
  · exact absurd hst (by simp)
  · rename_i hdone
    exact ⟨hdone, (Option.some.inj hst).symm⟩

/-- What the runner does to the socket. -/
theorem runner_ws (c : WebSocketClient) (io : PollCalls) :
    (c.runner io).ws = match c.socketOp io with
      | none => c.ws
      | some op => Endpoint.step c.ws op := by
  obtain ⟨out, inc, run, ws, pc⟩ := c
  cases pc with
  | pop => cases out <;> rfl
  | _ => rfl

/-! ## Queues -/

/-- Everything pushed is sent, in the runner's hand or in the queue, in this order; the socket has accepted
    what was sent while it was open, that is, up to some place; and nothing pushed is too long. -/
structure QueueInv (c : WebSocketClient) (h : Hist) : Prop where
  outgoing : ∃ sent, sent ++ c.inHand ++ c.m_Outgoing = h.pushed ∧ h.socket.accepted <+: sent ∧
    (c.ws.shut = false → h.socket.accepted = sent)
  incoming : h.popped ++ c.m_Incoming = h.socket.calls
  fits : ∀ s ∈ h.pushed, s.length < 2 ^ 63

theorem poll_shut (ws : WebSocket) (io : PollCalls) (h : (ws.poll io).1.shut = false) : ws.shut = false := by
  obtain ⟨tx, state, hws, -, hstate⟩ := poll_spec ws io
  rw [hws] at h
  rcases hstate with rfl | rfl
  · exact h
  · exact absurd h (by simp [shut, setSender])

theorem dispatch_shut (ws : WebSocket) (h : ws.dispatch.1.shut = false) : ws.shut = false := by
  by_contra hshut
  have hkeep : ws.dispatch.1.shut = true := by
    refine Consumer.drain_preserves (C := consumer) (I := fun ws _ => ws.shut = true) ?_ [] ?_
    · intro ws ws' _ calls hshut hround
      obtain ⟨-, ⟨-, rfl, -⟩ | ⟨header, -, rfl, -⟩⟩ := dispatchRound_cases hround
      · have hbad : ({ ws with isRxBad := true } : WebSocket).shut = true := hshut
        rwa [close_shut hbad]
      · obtain ⟨-, -, hnext⟩ := gotMessage_answer ws header.fin header.opcode (ws.payload header)
        exact hnext.trans (by rw [hshut]; rfl)
    · simpa using hshut
  rw [h] at hkeep
  exact absurd hkeep (by simp)

theorem QueueInv.runner {io : PollCalls} (hinv : QueueInv c h) (hdone : c.pc ≠ .done) :
    QueueInv (c.runner io) (record c (.runner io) h) := by
  obtain ⟨⟨sent, hsent, haccepted, hopen⟩, hincoming, hfits⟩ := hinv
  obtain ⟨out, inc, run, ws, pc⟩ := c
  cases pc with
  | done => exact absurd rfl hdone
  | whileRunning =>
    cases run <;> exact ⟨⟨sent, hsent, haccepted, hopen⟩, hincoming, hfits⟩
  | testState =>
    refine ⟨⟨sent, ?_, haccepted, hopen⟩, hincoming, hfits⟩
    have hsent : sent ++ [] ++ out = h.pushed := hsent
    by_cases hclosed : ws.readyState = .closed <;>
      simpa [WebSocketClient.runner, WebSocketClient.inHand, record, WebSocketClient.socketOp, hclosed]
        using hsent
  | pop =>
    cases out with
    | nil => exact ⟨⟨sent, hsent, haccepted, hopen⟩, hincoming, hfits⟩
    | cons data rest =>
      refine ⟨⟨sent, ?_, haccepted, hopen⟩, hincoming, hfits⟩
      have hsent : sent ++ [] ++ data :: rest = h.pushed := hsent
      show sent ++ [data] ++ rest = h.pushed
      simpa using hsent
  | send data =>
    refine ⟨⟨sent ++ [data], ?_, ?_, ?_⟩, ?_, hfits⟩
    · show sent ++ [data] ++ [] ++ out = h.pushed
      rw [List.append_nil]
      exact hsent
    · show h.socket.accepted ++ (if ws.shut then [] else [data]) <+: _
      cases hshut : ws.shut with
      | true =>
        rw [if_pos rfl, List.append_nil]
        exact haccepted.trans (List.prefix_append _ _)
      | false =>
        exact ⟨[], by rw [List.append_nil, if_neg (by simp), hopen hshut]⟩
    · show (ws.sendData .textFrame data).shut = false → h.socket.accepted ++ _ = _
      intro hshut
      have hshut : ws.shut = false := by simpa [shut] using hshut
      simp only [Endpoint.accepting, hshut]
      rw [if_neg (by simp), hopen hshut]
    · show h.popped ++ inc = h.socket.calls ++ []
      rw [List.append_nil]
      exact hincoming
  | poll | lastPoll =>
    refine ⟨⟨sent, hsent, ?_, ?_⟩, ?_, hfits⟩
    · show h.socket.accepted ++ [] <+: sent
      rwa [List.append_nil]
    · intro hshut
      show h.socket.accepted ++ [] = sent
      rw [List.append_nil]
      exact hopen (poll_shut ws io hshut)
    · show h.popped ++ inc = h.socket.calls ++ []
      rw [List.append_nil]
      exact hincoming
  | dispatch =>
    refine ⟨⟨sent, hsent, ?_, ?_⟩, ?_, hfits⟩
    · show h.socket.accepted ++ [] <+: sent
      rwa [List.append_nil]
    · intro hshut
      show h.socket.accepted ++ [] = sent
      rw [List.append_nil]
      exact hopen (dispatch_shut ws hshut)
    · show h.popped ++ (inc ++ ws.dispatch.2) = h.socket.calls ++ ws.dispatch.2
      rw [← List.append_assoc]
      exact congrArg (· ++ ws.dispatch.2) hincoming
  | close =>
    refine ⟨⟨sent, hsent, ?_, ?_⟩, ?_, hfits⟩
    · show h.socket.accepted ++ [] <+: sent
      rwa [List.append_nil]
    · show ws.close.shut = false → _
      intro hshut
      have hkeep : ws.close.shut = true := by
        cases h : ws.shut with
        | true => rwa [close_shut h]
        | false => exact (close_opened h).1
      rw [hshut] at hkeep
      exact absurd hkeep (by simp)
    · show h.popped ++ inc = h.socket.calls ++ []
      rw [List.append_nil]
      exact hincoming

theorem queueInv (hG : ∀ c l, G c l → WsClient.fits c l)
    (hs : Reachable (historySystem useMask) (Guard.past G) (c, h)) : QueueInv c h := by
  refine Reachable.invariant (I := fun y => QueueInv y.1 y.2) ?_ ?_ hs
  · rintro ⟨c, h⟩ ⟨hinit, hempty⟩
    obtain rfl : c = WebSocketClient.init useMask := hinit
    obtain rfl : h = Hist.empty := hempty
    exact ⟨⟨[], rfl, List.prefix_rfl, fun _ => rfl⟩, rfl, by simp [Hist.empty]⟩
  · rintro ⟨c, h⟩ l ⟨c', h'⟩ - hinv hg hst
    replace hst := history_step hst
    obtain ⟨hst, rfl⟩ := hst
    cases l with
    | push s =>
      obtain rfl := Option.some.inj hst
      obtain ⟨⟨sent, hsent, haccepted, hopen⟩, hincoming, hfits⟩ := hinv
      refine ⟨⟨sent, ?_, haccepted, hopen⟩, hincoming, ?_⟩
      · show sent ++ c.inHand ++ (c.m_Outgoing ++ [s]) = h.pushed ++ [s]
        rw [← List.append_assoc]
        exact congrArg (· ++ [s]) hsent
      · intro x hx
        rcases List.mem_append.mp hx with hx | hx
        · exact hfits x hx
        · exact List.mem_singleton.mp hx ▸ hG c _ hg
    | recv =>
      obtain rfl := Option.some.inj hst
      obtain ⟨houtgoing, hincoming, hfits⟩ := hinv
      refine ⟨houtgoing, ?_, hfits⟩
      show h.popped ++ c.m_Incoming.take 1 ++ c.m_Incoming.tail = h.socket.calls
      rw [List.append_assoc, ← List.drop_one, List.take_append_drop]
      exact hincoming
    | stop =>
      obtain rfl := Option.some.inj hst
      exact ⟨hinv.outgoing, hinv.incoming, hinv.fits⟩
    | runner io =>
      obtain ⟨hdone, rfl⟩ := step_runner hst
      exact hinv.runner hdone

/-! ## The socket -/

theorem socketOp_fits {io : PollCalls} {op : Endpoint.Label} (hhand : ∀ s ∈ c.inHand, s.length < 2 ^ 63)
    (h : c.socketOp io = some op) : Endpoint.fits c.ws op := by
  cases hpc : c.pc with
  | send data =>
    simp only [WebSocketClient.socketOp, hpc] at h
    obtain rfl := Option.some.inj h
    exact hhand data (by simp [WebSocketClient.inHand, hpc])
  | poll | lastPoll | dispatch | close =>
    simp only [WebSocketClient.socketOp, hpc] at h
    obtain rfl := Option.some.inj h
    trivial
  | whileRunning | testState | pop | done =>
    simp only [WebSocketClient.socketOp, hpc] at h
    exact absurd h (by simp)

/-- The runner uses the socket as any program may, and no other thread touches it. -/
theorem reachable_socket (hG : ∀ c l, G c l → WsClient.fits c l)
    (hs : Reachable (historySystem useMask) (Guard.past G) (c, h)) :
    Reachable (Endpoint.historySystem useMask) (Guard.past Endpoint.fits) (c.ws, h.socket) := by
  refine Reachable.invariant (I := fun y => Reachable (Endpoint.historySystem useMask)
    (Guard.past Endpoint.fits) (y.1.ws, y.2.socket)) ?_ ?_ hs
  · rintro ⟨c, h⟩ ⟨hinit, hempty⟩
    obtain rfl : c = WebSocketClient.init useMask := hinit
    obtain rfl : h = Hist.empty := hempty
    exact Reachable.of_init ⟨rfl, rfl⟩
  · rintro ⟨c, h⟩ l ⟨c', h'⟩ hy ih hg hst
    replace hst := history_step hst
    obtain ⟨hst, rfl⟩ := hst
    cases l with
    | push _ | recv | stop =>
      obtain rfl := Option.some.inj hst
      exact ih
    | runner io =>
      obtain ⟨-, rfl⟩ := step_runner hst
      have hws := runner_ws c io
      dsimp only
      cases hop : c.socketOp io with
      | none =>
        rw [hop] at hws
        rw [hws]
        simp only [record, hop]
        exact ih
      | some op =>
        rw [hop] at hws
        rw [hws]
        simp only [record, hop]
        refine ih.step (l := op) ?_ (withHistory_step.mpr ⟨rfl, rfl⟩)
        show Endpoint.fits c.ws op
        -- what is sent has been pushed
        obtain ⟨⟨sent, hsent, -⟩, -, hfits⟩ := queueInv hG hy
        exact socketOp_fits (fun s hs => hfits s (hsent ▸ by simp [hs])) hop

/-- A peer that has received part of what the socket has written has been given part of what was pushed, in
    order; all of it, if it has received all, nothing waits in a queue or a buffer and the socket is open. -/
theorem pushed_delivered (hG : ∀ c l, G c l → WsClient.fits c l)
    (hs : Reachable (historySystem useMask) (Guard.past G) (c, h)) (peer : WebSocket)
    {received : List UInt8} (hpeer : peer.receivedData = [] ∧ peer.isRxBad = false)
    (hrx : peer.rxbuf = received) (hreceived : received <+: h.socket.written) :
    peer.dispatch.2 <+: h.pushed ∧
      (received = h.socket.written → c.ws.txbuf = [] → c.ws.shut = false → c.inHand = [] →
        c.m_Outgoing = [] → peer.dispatch.2 = h.pushed) := by
  obtain ⟨⟨sent, hsent, haccepted, hopen⟩, -, -⟩ := queueInv hG hs
  have hout := Endpoint.outgoing (fun _ _ h => h) (reachable_socket hG hs)
  obtain ⟨-, hpre, hall⟩ := Endpoint.received_messages hout peer hpeer hrx hreceived
  rw [List.append_assoc] at hsent
  refine ⟨(hpre.trans haccepted).trans (hsent ▸ List.prefix_append _ _), ?_⟩
  intro hwritten htx hshut hhand hqueue
  rw [hall hwritten htx, hopen hshut, ← hsent, hhand, hqueue]
  simp

end

end WsClient
end Epidemica
