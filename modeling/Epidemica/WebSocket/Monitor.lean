import Epidemica.Core.Replication
import Epidemica.Transactions.Strings
import Epidemica.WebSocket.WsClient

/-!
# `WebSocket.Monitor` — what the monitor is shown

After each transaction that is not a read, `Node::ExecuteTransaction` pushes the node's name and version on the
queue of its web socket client. It takes no lock: two calls that change the version of one node and overlap
can both push the later version. Where such calls do not overlap (`alone`), the monitor at the other end is
shown the versions of the node in the order in which it went through them (`monitor_versions`). Over the core
layer, where the nodes execute the same writes in the same order, it is shown one history, of each node up to
some place (`monitor_history`).
-/

namespace Epidemica

open Incremental Transition

namespace Monitor

/-- `m_Transaction.GetName() + ": " + ss.str()`. -/
def text (name : List Char) (version : Int32) : Call :=
  (name ++ [':', ' '] ++ numeral version).map Char.toUInt8

/-- What is pushed after transaction `d`, which has left `version`. -/
def report (name : List Char) (d : TransactionData) (version : Int32) : List Call :=
  if d.type = .read then [] else [text name version]

/-- What is pushed in the course of a list of transactions. -/
def log (name : List Char) (t : Transaction) : List TransactionData → List Call
  | [] => []
  | d :: ds => report name d (t.execute d).version ++ log name (t.execute d) ds

theorem log_append (name : List Char) (t : Transaction) (ds es : List TransactionData) :
    log name t (ds ++ es) = log name t ds ++ log name (t.executeAll ds) es := by
  induction ds generalizing t with
  | nil => rfl
  | cons d ds ih => rw [List.cons_append, log, ih, log, List.append_assoc, Transaction.executeAll_cons]

/-- Longer lists are reported further. -/
theorem log_mono (name : List Char) (t : Transaction) {ds es : List TransactionData} (h : ds <+: es) :
    log name t ds <+: log name t es := by
  obtain ⟨rest, rfl⟩ := h
  rw [log_append]
  exact List.prefix_append _ _

theorem text_fits {name : List Char} (hname : name.length + 13 < 2 ^ 63) (version : Int32) :
    (text name version).length < 2 ^ 63 := by
  have := length_numeral version
  simp only [text, List.length_map, List.length_append, List.length_cons, List.length_nil]
  omega

theorem log_fits {name : List Char} (hname : name.length + 13 < 2 ^ 63) (t : Transaction)
    (ds : List TransactionData) : ∀ x ∈ log name t ds, x.length < 2 ^ 63 := by
  induction ds generalizing t with
  | nil => simp [log]
  | cons d ds ih =>
    intro x hx
    rcases List.mem_append.mp hx with hx | hx
    · unfold report at hx
      split at hx
      · exact absurd hx (by simp)
      · exact List.mem_singleton.mp hx ▸ text_fits hname _
    · exact ih _ x hx

/-! ## One node -/

/-- Where a call of `ExecuteTransaction` stands behind its `switch`, if it is not for a read. -/
inductive CallPc where
  | getVersion
  /-- At `Send`, with the string. -/
  | send (s : Call)
  deriving DecidableEq, Repr

/-- The parts of a `Node` that `ExecuteTransaction` uses, and its calls that still have something to push. -/
structure State where
  transaction : Transaction
  calls : List CallPc
  client : WebSocketClient
  deriving DecidableEq, Repr

/-- The steps of a node. -/
inductive Label where
  /-- `ExecuteTransaction` is called and executes its `switch`. -/
  | execute (d : TransactionData)
  /-- The call at position `i` executes its next statement. -/
  | call (i : Nat)
  /-- The client's runner executes its next statement, or the client is destroyed. -/
  | client (l : WsClient.Label)
  deriving DecidableEq, Repr

/-- A node pushes in `ExecuteTransaction` only, and never receives. -/
def isOwn : WsClient.Label → Bool
  | .runner _ | .stop => true
  | .push _ | .recv => false

/-- `Send` for each string. -/
def send (c : WebSocketClient) (ss : List Call) : WebSocketClient :=
  { c with m_Outgoing := c.m_Outgoing ++ ss }

/-- A step of a node: the `switch` of a call, a later statement of a call, or a step of the client. -/
def step (name : List Char) (s : State) : Label → Option State
  | .execute d =>
    some { s with
      transaction := s.transaction.execute d
      calls := s.calls ++ if d.type = .read then [] else [.getVersion] }
  | .call i =>
    match s.calls[i]? with
    | none => none
    | some .getVersion => some { s with calls := s.calls.set i (.send (text name s.transaction.version)) }
    | some (.send x) => some { s with calls := s.calls.eraseIdx i, client := send s.client [x] }
  | .client l => if isOwn l then (WsClient.step s.client l).map fun c => { s with client := c } else none

/-- A node whose client is connected: `from_url` masks. -/
def system (name : List Char) : System State Label :=
  ⟨fun s => s = ⟨⟨0⟩, [], WebSocketClient.init true⟩, step name⟩

/-- No call changes the version while another one has not pushed it. -/
def alone : Guard State Label
  | s, .execute d => d.type = .read ∨ s.calls = []
  | _, .call _ | _, .client _ => True

instance : ∀ s l, Decidable (alone s l)
  | s, .execute d => inferInstanceAs (Decidable (d.type = .read ∨ s.calls = []))
  | _, .call _ | _, .client _ => isTrue trivial

/-- What a node has executed, in order, and what has passed through its client. -/
structure Hist where
  executed : List TransactionData
  client : WsClient.Hist
  deriving DecidableEq, Repr

/-- Nothing has happened. -/
def Hist.empty : Hist := ⟨[], WsClient.Hist.empty⟩

/-- What a step adds to the history. -/
def record (s : State) (l : Label) (h : Hist) : Hist :=
  match l with
  | .execute d => { h with executed := h.executed ++ [d] }
  | .call i =>
    match s.calls[i]? with
    | some (.send x) => { h with client := { h.client with pushed := h.client.pushed ++ [x] } }
    | _ => h
  | .client l => { h with client := WsClient.record s.client l h.client }

/-- A node with its history. -/
def historySystem (name : List Char) : System (State × Hist) Label :=
  (system name).withHistory Hist.empty record

section
variable {name : List Char} {s t : State} {h k : Hist}

theorem history_step {l : Label} (hst : (historySystem name).step (s, h) l = some (t, k)) :
    step name s l = some t ∧ k = record s l h :=
  withHistory_step.mp hst

/-- A call goes on: it makes its string, or pushes it. -/
theorem step_call {i : Nat} (hst : step name s (.call i) = some t) :
    (s.calls[i]? = some .getVersion ∧
        t = { s with calls := s.calls.set i (.send (text name s.transaction.version)) }) ∨
      ∃ x, s.calls[i]? = some (.send x) ∧
        t = { s with calls := s.calls.eraseIdx i, client := send s.client [x] } := by
  simp only [step] at hst
  split at hst
  · exact absurd hst (by simp)
  · rename_i hi
    exact Or.inl ⟨hi, (Option.some.inj hst).symm⟩
  · rename_i x hi
    exact Or.inr ⟨x, hi, (Option.some.inj hst).symm⟩

theorem step_client {l : WsClient.Label} (hst : step name s (.client l) = some t) :
    isOwn l = true ∧ ∃ c, WsClient.step s.client l = some c ∧ t = { s with client := c } := by
  simp only [step] at hst
  split at hst
  · rename_i hown
    obtain ⟨c, hc, rfl⟩ := Option.map_eq_some_iff.mp hst
    exact ⟨hown, c, hc, rfl⟩
  · exact absurd hst (by simp)

theorem fits_own {c : WebSocketClient} {l : WsClient.Label} (h : isOwn l = true) : WsClient.fits c l := by
  cases l with
  | runner | stop | recv => trivial
  | push => exact absurd h (by simp [isOwn])

theorem record_own (c : WebSocketClient) (hc : WsClient.Hist) {l : WsClient.Label} (h : isOwn l = true) :
    (WsClient.record c l hc).pushed = hc.pushed := by
  cases l with
  | runner io =>
    unfold WsClient.record
    dsimp only
    split <;> rfl
  | stop => rfl
  | push | recv => exact absurd h (by simp [isOwn])

/-- What the calls are going to push, if nothing changes the version before. -/
def unsent (name : List Char) (s : State) : List Call :=
  s.calls.map fun
    | .getVersion => text name s.transaction.version
    | .send x => x

/-- What a node has executed is its version, and what it has pushed or is going to push. -/
structure NodeInv (name : List Char) (s : State) (h : Hist) : Prop where
  version : s.transaction = Transaction.executeAll ⟨0⟩ h.executed
  pushed : h.client.pushed ++ unsent name s = log name ⟨0⟩ h.executed
  calls : s.calls.length ≤ 1
  client : Reachable (WsClient.historySystem true) (Guard.past WsClient.fits) (s.client, h.client)

/-- A call that goes on is the only one. -/
theorem only_call {i : Nat} {c : CallPc} (hlen : s.calls.length ≤ 1) (hi : s.calls[i]? = some c) :
    i = 0 ∧ s.calls = [c] := by
  obtain ⟨hlt, hget⟩ := List.getElem?_eq_some_iff.mp hi
  obtain rfl : i = 0 := by omega
  obtain ⟨x, hx⟩ := List.length_eq_one_iff.mp (by omega : s.calls.length = 1)
  simp only [hx, List.getElem_singleton] at hget
  exact ⟨rfl, by rw [hx, hget]⟩

/-- What a call is about to push fits. -/
theorem NodeInv.send_fits (hname : name.length + 13 < 2 ^ 63) (hinv : NodeInv name s h) {i : Nat} {x : Call}
    (hi : s.calls[i]? = some (.send x)) : x.length < 2 ^ 63 := by
  have hmem : x ∈ unsent name s := List.mem_map.mpr ⟨.send x, List.mem_of_getElem? hi, rfl⟩
  exact log_fits hname ⟨0⟩ h.executed x (hinv.pushed ▸ List.mem_append_right _ hmem)

theorem NodeInv.execute (hinv : NodeInv name s h) {d : TransactionData}
    (halone : d.type = .read ∨ s.calls = []) (hst : step name s (.execute d) = some t) :
    NodeInv name t (record s (.execute d) h) := by
  obtain ⟨hversion, hpushed, hcalls, hclient⟩ := hinv
  obtain rfl := Option.some.inj hst
  have hlog : log name ⟨0⟩ (h.executed ++ [d]) =
      h.client.pushed ++ unsent name s ++ report name d (s.transaction.execute d).version := by
    rw [log_append, ← hversion, log, log, List.append_nil, hpushed]
  refine ⟨?_, ?_, ?_, hclient⟩
  · show s.transaction.execute d = Transaction.executeAll ⟨0⟩ (h.executed ++ [d])
    rw [Transaction.executeAll_append, ← hversion]
    rfl
  · show h.client.pushed ++ _ = log name ⟨0⟩ (h.executed ++ [d])
    rw [hlog, List.append_assoc]
    by_cases hread : d.type = .read
    · -- nothing changes
      have hsame : s.transaction.execute d = s.transaction :=
        Transaction.execute_of_not_write _ (by simp [hread, TransactionType.isWrite]) (by simp [hread])
      simp [unsent, report, hread, hsame]
    · simp [unsent, report, hread, halone.resolve_left hread]
  · show (s.calls ++ _).length ≤ 1
    by_cases hread : d.type = .read
    · simpa [hread] using hcalls
    · simp [hread, halone.resolve_left hread]

theorem NodeInv.call (hname : name.length + 13 < 2 ^ 63) (hinv : NodeInv name s h) {i : Nat}
    (hst : step name s (.call i) = some t) : NodeInv name t (record s (.call i) h) := by
  have hfits := fun x => hinv.send_fits hname (i := i) (x := x)
  obtain ⟨hversion, hpushed, hcalls, hclient⟩ := hinv
  rcases step_call hst with ⟨hi, rfl⟩ | ⟨x, hi, rfl⟩
  · obtain ⟨rfl, hone⟩ := only_call hcalls hi
    simp only [record, hi]
    refine ⟨hversion, ?_, by simpa using hcalls, hclient⟩
    simpa [unsent, hone] using hpushed
  · obtain ⟨rfl, hone⟩ := only_call hcalls hi
    simp only [record, hi]
    refine ⟨hversion, ?_, by simp [hone], ?_⟩
    · simpa [unsent, hone] using hpushed
    · exact hclient.step (l := .push x) (hfits x hi) (withHistory_step.mpr ⟨rfl, rfl⟩)

theorem nodeInv (hname : name.length + 13 < 2 ^ 63)
    (hs : Reachable (historySystem name) (Guard.past alone) (s, h)) : NodeInv name s h := by
  refine Reachable.invariant (I := fun y => NodeInv name y.1 y.2) ?_ ?_ hs
  · rintro ⟨s, h⟩ ⟨hinit, hempty⟩
    obtain rfl : s = ⟨⟨0⟩, [], WebSocketClient.init true⟩ := hinit
    obtain rfl : h = Hist.empty := hempty
    exact ⟨rfl, rfl, Nat.zero_le 1, Reachable.of_init ⟨rfl, rfl⟩⟩
  · rintro ⟨s, h⟩ l ⟨t, k⟩ - ih hg hst
    replace hst := history_step hst
    obtain ⟨hst, rfl⟩ := hst
    cases l with
    | execute d => exact ih.execute hg hst
    | call i => exact ih.call hname hst
    | client l =>
      obtain ⟨hown, c, hc, rfl⟩ := step_client hst
      obtain ⟨hversion, hpushed, hcalls, hclient⟩ := ih
      refine ⟨hversion, ?_, hcalls, hclient.step (l := l) (fits_own hown) (withHistory_step.mpr ⟨hc, rfl⟩)⟩
      show (WsClient.record s.client l h.client).pushed ++ _ = _
      rw [record_own s.client h.client hown]
      exact hpushed

/-- What has been received of the socket shows versions of the node in order. -/
theorem monitor_shown (hname : name.length + 13 < 2 ^ 63)
    (hs : Reachable (historySystem name) (Guard.past alone) (s, h)) (mask : Bool) {received : List UInt8}
    (hreceived : received <+: h.client.socket.written) :
    ((WebSocket.init mask).feed received).dispatch.2 <+: log name ⟨0⟩ h.executed ∧
      (received = h.client.socket.written → s.client.ws.txbuf = [] → s.client.ws.shut = false →
        s.client.inHand = [] → s.client.m_Outgoing = [] → s.calls = [] →
        ((WebSocket.init mask).feed received).dispatch.2 = log name ⟨0⟩ h.executed) := by
  obtain ⟨-, hpushed, -, hclient⟩ := nodeInv hname hs
  obtain ⟨hpre, hall⟩ := WsClient.pushed_delivered (fun _ _ h => h) hclient
    ((WebSocket.init mask).feed received) ⟨rfl, rfl⟩ rfl hreceived
  refine ⟨hpre.trans (hpushed ▸ List.prefix_append _ _), ?_⟩
  intro hwritten htx hshut hhand hqueue hcalls
  have hnone : unsent name s = [] := by simp [unsent, hcalls]
  rw [hall hwritten htx hshut hhand hqueue, ← hpushed, hnone, List.append_nil]

/-- A call of `ExecuteTransaction` from its beginning to its end. -/
theorem reachable_execute {u : Transaction} {c : WebSocketClient}
    (hs : Reachable (historySystem name) (Guard.past alone) (⟨u, [], c⟩, h)) (d : TransactionData) :
    Reachable (historySystem name) (Guard.past alone)
      (⟨u.execute d, [], send c (report name d (u.execute d).version)⟩,
        ⟨h.executed ++ [d], { h.client with
          pushed := h.client.pushed ++ report name d (u.execute d).version }⟩) := by
  have halone : alone ⟨u, [], c⟩ (.execute d) := Or.inr rfl
  by_cases hread : d.type = .read
  · have hstep : (historySystem name).step (⟨u, [], c⟩, h) (.execute d) =
        some (⟨u.execute d, [], c⟩, { h with executed := h.executed ++ [d] }) := by
      refine withHistory_step.mpr ⟨?_, rfl⟩
      simp [system, step, hread]
    simpa [report, send, hread] using hs.step halone hstep
  · have hstep : (historySystem name).step (⟨u, [], c⟩, h) (.execute d) =
        some (⟨u.execute d, [.getVersion], c⟩, { h with executed := h.executed ++ [d] }) := by
      refine withHistory_step.mpr ⟨?_, rfl⟩
      simp [system, step, hread]
    have hstring : Reachable (historySystem name) (Guard.past alone)
        (⟨u.execute d, [.send (text name (u.execute d).version)], c⟩,
          { h with executed := h.executed ++ [d] }) :=
      (hs.step halone hstep).step (l := .call 0) trivial
        (withHistory_step.mpr ⟨rfl, rfl⟩)
    simp only [report, hread, if_false]
    exact hstring.step (l := .call 0) trivial (withHistory_step.mpr ⟨rfl, rfl⟩)

end

/-- The monitor is shown the versions of the node after its first transactions that are not reads, in order,
    none left out and none twice: however the statements of `ExecuteTransaction`, the runner and the connection
    interleave, as long as no two calls that change the version overlap, and however many bytes of what was
    written have been received. If everything has been received and nothing waits, it has been shown all. -/
theorem monitor_versions (name : List Char) (hname : name.length + 13 < 2 ^ 63) (s : State) (h : Hist)
    (hs : Reachable (historySystem name) (Guard.past alone) (s, h)) (mask : Bool) (received : List UInt8)
    (hreceived : received <+: h.client.socket.written) :
    ((WebSocket.init mask).feed received).dispatch.2 <+: log name ⟨0⟩ h.executed ∧
      (received = h.client.socket.written → s.client.ws.txbuf = [] → s.client.ws.shut = false →
        s.client.inHand = [] → s.client.m_Outgoing = [] → s.calls = [] →
        ((WebSocket.init mask).feed received).dispatch.2 = log name ⟨0⟩ h.executed) :=
  monitor_shown hname hs mask hreceived

/-- Two turns of the runner, in which the socket takes the frames of two strings. -/
def twoTurns (first second : Nat) : List WsClient.Label :=
  [.runner ⟨[], false, [], false⟩, .runner ⟨[], false, [], false⟩, .runner ⟨[], false, [], false⟩,
    .runner ⟨[], false, [], false⟩, .runner ⟨[], false, [first], false⟩, .runner ⟨[], false, [], false⟩,
    .runner ⟨[], false, [], false⟩, .runner ⟨[], false, [], false⟩, .runner ⟨[], false, [], false⟩,
    .runner ⟨[], false, [], false⟩, .runner ⟨[], false, [second], false⟩, .runner ⟨[], false, [], false⟩]

/-- A node adds `5`, is read before that is pushed, and multiplies by `3`. -/
def addReadMultiply : List Label :=
  [.execute ⟨.sum, 5⟩, .execute ⟨.read, 0⟩, .call 0, .call 0, .execute ⟨.multiply, 3⟩, .call 0, .call 0] ++
    (twoTurns 10 11).map .client

/-- Its monitor is shown "N: 5" and "N: 15". -/
theorem monitor_versions_addReadMultiply :
    ∃ s h, Reachable (historySystem ['N']) (Guard.past alone) (s, h) ∧
      ((WebSocket.init false).feed h.client.socket.written).dispatch.2 =
        [[78, 58, 32, 53], [78, 58, 32, 49, 53]] := by
  obtain ⟨⟨s, h⟩, -, hs, hP⟩ := Reachable.of_exec (historySystem ['N']) (Guard.past alone)
    (⟨⟨0⟩, [], WebSocketClient.init true⟩, Hist.empty) addReadMultiply
    (fun y => decide (y.1.client.ws.txbuf = [] ∧ y.1.client.ws.shut = false ∧ y.1.client.inHand = [] ∧
      y.1.client.m_Outgoing = [] ∧ y.1.calls = [] ∧
      y.2.executed = [⟨.sum, 5⟩, ⟨.read, 0⟩, ⟨.multiply, 3⟩]))
    ⟨rfl, rfl⟩ (by decide +kernel)
  obtain ⟨htx, hshut, hhand, hqueue, hcalls, hexec⟩ := of_decide_eq_true hP
  refine ⟨s, h, hs, ?_⟩
  rw [(monitor_versions ['N'] (by decide) s h hs false _ List.prefix_rfl).2 rfl htx hshut hhand hqueue hcalls]
  dsimp only at hexec
  rw [hexec]
  decide +kernel

/-! ## The core layer -/

/-- The core layer, and the client of each node. A write is executed and its version pushed in one step: in
    the runs of `quiet` there is one writer at a time (`Core.one_writer`), so no other write is executed on the
    node in the meantime. -/
structure LayerState where
  core : Core.State
  client : Int → WebSocketClient

/-- The steps of the core layer and of the clients of its nodes. -/
inductive LayerLabel where
  /-- A step of the core layer. -/
  | core (l : Core.Label)
  /-- A step of the client of node `x`, as in `Label.client`. -/
  | client (x : Int) (l : WsClient.Label)
  deriving DecidableEq, Repr

/-- What node `x` pushes in a step of the core layer that leads to `t`: it reports what it executes. -/
def reports (name : Int → List Char) (s t : Core.State) (x : Int) (l : Core.Label) : List Call :=
  (Core.executing s x l).flatMap fun d => report (name x) d.2 (t.node x).transaction.version

/-- A step of the layer: what a node executes it pushes. -/
def layerStep (net : Mesh) (name : Int → List Char) (s : LayerState) : LayerLabel → Option LayerState
  | .core l =>
    ((Core.system net).step s.core l).map fun t =>
      ⟨t, fun x => send (s.client x) (reports name s.core t x l)⟩
  | .client x l =>
    if isOwn l then
      (WsClient.step (s.client x) l).map fun c => ⟨s.core, Function.update s.client x c⟩
    else none

/-- The layer from its beginning, with all clients connected. -/
def layerSystem (net : Mesh) (name : Int → List Char) : System LayerState LayerLabel :=
  ⟨fun s => s = ⟨Core.init, fun _ => WebSocketClient.init true⟩, layerStep net name⟩

/-- The history of the core layer, and of each client. -/
structure LayerHist where
  core : Core.Hist
  client : Int → WsClient.Hist

/-- What a step adds to the history. -/
def layerRecord (net : Mesh) (name : Int → List Char) (s : LayerState) (l : LayerLabel) (h : LayerHist) :
    LayerHist :=
  match l with
  | .core l =>
    { core := Core.record net.layers s.core l h.core
      client := fun x => { h.client x with
        pushed := (h.client x).pushed ++
          (((Core.system net).step s.core l).map fun t => reports name s.core t x l).getD [] } }
  | .client x l =>
    { h with client := Function.update h.client x (WsClient.record (s.client x) l (h.client x)) }

/-- The layer with its history. -/
def layerHistorySystem (net : Mesh) (name : Int → List Char) : System (LayerState × LayerHist) LayerLabel :=
  (layerSystem net name).withHistory ⟨Core.Hist.empty, fun _ => WsClient.Hist.empty⟩ (layerRecord net name)

/-- The steps of the core layer are those of `Core.quietRuns`: no node handles a `REQUEST` while it is sending
    its own. -/
def quiet : Guard LayerState LayerLabel
  | s, .core l => Core.quietRuns s.core l
  | _, _ => True

instance : ∀ s l, Decidable (quiet s l)
  | s, .core l =>
    inferInstanceAs (Decidable (Core.clients s.core l ∧ Core.fifo s.core l ∧ Core.quietSend s.core l))
  | _, .client _ _ => isTrue trivial

section
variable {net : Mesh} {name : Int → List Char} {s t : LayerState} {h k : LayerHist}

theorem layerHistory_step {l : LayerLabel}
    (hst : (layerHistorySystem net name).step (s, h) l = some (t, k)) :
    layerStep net name s l = some t ∧ k = layerRecord net name s l h :=
  withHistory_step.mp hst

theorem layerStep_core {l : Core.Label} (hst : layerStep net name s (.core l) = some t) :
    ∃ u, (Core.system net).step s.core l = some u ∧
      t = ⟨u, fun x => send (s.client x) (reports name s.core u x l)⟩ := by
  obtain ⟨u, hu, rfl⟩ := Option.map_eq_some_iff.mp hst
  exact ⟨u, hu, rfl⟩

theorem layerStep_client {x : Int} {l : WsClient.Label} (hst : layerStep net name s (.client x l) = some t) :
    isOwn l = true ∧ ∃ c, WsClient.step (s.client x) l = some c ∧
      t = ⟨s.core, Function.update s.client x c⟩ := by
  simp only [layerStep] at hst
  split at hst
  · rename_i hown
    obtain ⟨c, hc, rfl⟩ := Option.map_eq_some_iff.mp hst
    exact ⟨hown, c, hc, rfl⟩
  · exact absurd hst (by simp)

/-- The core layer runs as it does without monitors. -/
theorem reachable_core (hs : Reachable (layerHistorySystem net name) (Guard.past quiet) (s, h)) :
    Reachable (Core.historySystem net) (Guard.past Core.quietRuns) (s.core, h.core) := by
  refine Reachable.invariant (I := fun y =>
    Reachable (Core.historySystem net) (Guard.past Core.quietRuns) (y.1.core, y.2.core)) ?_ ?_ hs
  · rintro ⟨s, h⟩ ⟨hinit, hempty⟩
    obtain rfl : s = _ := hinit
    obtain rfl : h = _ := hempty
    exact Reachable.of_init ⟨rfl, rfl⟩
  · rintro ⟨s, h⟩ l ⟨t, k⟩ - ih hg hst
    replace hst := layerHistory_step hst
    obtain ⟨hst, rfl⟩ := hst
    cases l with
    | core l =>
      obtain ⟨u, hu, rfl⟩ := layerStep_core hst
      exact ih.step (l := l) hg (withHistory_step.mpr ⟨hu, rfl⟩)
    | client x l =>
      obtain ⟨-, c, -, rfl⟩ := layerStep_client hst
      exact ih

/-- A node executes at most one transaction in a step. -/
theorem executing_cases (s : Core.State) (x : Int) (l : Core.Label) :
    Core.executing s x l = [] ∨ ∃ d, Core.executing s x l = [d] := by
  cases l with
  | submit | drain => exact .inl rfl
  | requester p =>
    simp only [Core.executing]
    split
    · exact .inr ⟨_, rfl⟩
    · exact .inl rfl
  | handle p q i =>
    simp only [Core.executing]
    split
    · cases (s.chan q p)[i]?.bind Msg.write? with
      | none => exact .inl rfl
      | some d => exact .inr ⟨(q, d), rfl⟩
    · exact .inl rfl

/-- Each core node with its client is a node that executes what it applies. -/
theorem reachable_node (x : Int) (hs : Reachable (layerHistorySystem net name) (Guard.past quiet) (s, h)) :
    Reachable (historySystem (name x)) (Guard.past alone)
      (⟨(s.core.node x).transaction, [], s.client x⟩, ⟨(h.core.applied x).map Prod.snd, h.client x⟩) := by
  refine Reachable.invariant (I := fun y => Reachable (historySystem (name x)) (Guard.past alone)
    (⟨(y.1.core.node x).transaction, [], y.1.client x⟩, ⟨(y.2.core.applied x).map Prod.snd, y.2.client x⟩))
    ?_ ?_ hs
  · rintro ⟨s, h⟩ ⟨hinit, hempty⟩
    obtain rfl : s = _ := hinit
    obtain rfl : h = _ := hempty
    exact Reachable.of_init ⟨rfl, rfl⟩
  · rintro ⟨s, h⟩ l ⟨t, k⟩ hy ih hg hst
    replace hst := layerHistory_step hst
    obtain ⟨hst, rfl⟩ := hst
    cases l with
    | core l =>
      obtain ⟨u, hu, rfl⟩ := layerStep_core hst
      have hversion := Core.version_step (x := x) hu
      dsimp only [layerRecord, Core.record]
      rw [hu]
      rcases executing_cases s.core x l with hnone | ⟨⟨w, d⟩, hone⟩
      · -- nothing is executed, and nothing reported
        rw [hnone] at hversion
        have hsame : (u.node x).transaction = (s.core.node x).transaction := hversion
        simp only [reports, hnone, hsame]
        simpa [send] using ih
      · rw [hone] at hversion
        have hnext : (u.node x).transaction = (s.core.node x).transaction.execute d := hversion
        simp only [reports, hone, hnext, List.map_append, List.flatMap_singleton, Option.map_some,
          Option.getD_some]
        exact reachable_execute ih d
    | client y l =>
      obtain ⟨hown, c, hc, rfl⟩ := layerStep_client hst
      dsimp only [layerRecord]
      by_cases hxy : x = y
      · subst hxy
        rw [Function.update_self, Function.update_self]
        refine ih.step (l := .client l) trivial (withHistory_step.mpr ⟨?_, rfl⟩)
        show (if isOwn l then _ else none) = _
        rw [if_pos hown, hc]
        rfl
      · rw [Function.update_of_ne hxy, Function.update_of_ne hxy]
        exact ih

end

/-- Of every core node the monitor is shown the beginning of one history: the versions after the writes in the
    order in which the critical sections were entered. When no transaction is in progress, nothing waits in the
    node's client, its socket is open and all that was written has been received, it is shown all of it. -/
theorem monitor_history (net : Mesh) (name : Int → List Char)
    (hname : ∀ x ∈ net.cores, (name x).length + 13 < 2 ^ 63) (s : LayerState) (h : LayerHist)
    (hs : Reachable (layerHistorySystem net name) (Guard.past quiet) (s, h)) (x : Int) (hx : x ∈ net.cores)
    (mask : Bool) (received : List UInt8) (hreceived : received <+: (h.client x).socket.written) :
    ((WebSocket.init mask).feed received).dispatch.2 <+:
        log (name x) ⟨0⟩ (h.core.entered.map Prod.snd) ∧
      ((∀ p ∈ net.cores, (s.core.node p).idle = true) →
        received = (h.client x).socket.written → (s.client x).ws.txbuf = [] →
        (s.client x).ws.shut = false → (s.client x).inHand = [] → (s.client x).m_Outgoing = [] →
        ((WebSocket.init mask).feed received).dispatch.2 =
          log (name x) ⟨0⟩ (h.core.entered.map Prod.snd)) := by
  have hcore := reachable_core hs
  obtain ⟨hpre, hall⟩ := monitor_shown (hname x hx) (reachable_node x hs) mask hreceived
  refine ⟨hpre.trans (log_mono _ _ ((Core.applied_begins hcore hx).map _)), ?_⟩
  intro hidle hwritten htx hshut hhand hqueue
  rw [hall hwritten htx hshut hhand hqueue rfl, Core.applied_eq_entered hcore hidle hx]

/-- Node `1` adds `5`, node `2` multiplies by `3`, and the client of node `2` runs. -/
def twoReports : List LayerLabel := Core.twoWrites.map .core ++ (twoTurns 10 11).map (.client 2)

/-- Of node `2` the monitor is shown "2: 5", which was written by node `1`, and "2: 15". -/
theorem monitor_history_twoReports :
    ∃ s h, Reachable (layerHistorySystem Mesh.two fun x => numeral (Int32.ofInt x)) (Guard.past quiet) (s, h) ∧
      ((WebSocket.init false).feed (h.client 2).socket.written).dispatch.2 =
        [[50, 58, 32, 53], [50, 58, 32, 49, 53]] := by
  obtain ⟨⟨s, h⟩, -, hs, hP⟩ := Reachable.of_exec
    (layerHistorySystem Mesh.two fun x => numeral (Int32.ofInt x)) (Guard.past quiet)
    (⟨Core.init, fun _ => WebSocketClient.init true⟩, ⟨Core.Hist.empty, fun _ => WsClient.Hist.empty⟩)
    twoReports
    (fun y => decide ((∀ p ∈ Mesh.two.cores, (y.1.core.node p).idle = true) ∧
      (y.1.client 2).ws.txbuf = [] ∧ (y.1.client 2).ws.shut = false ∧ (y.1.client 2).inHand = [] ∧
      (y.1.client 2).m_Outgoing = [] ∧ y.2.core.entered = [(1, ⟨.sum, 5⟩), (2, ⟨.multiply, 3⟩)]))
    ⟨rfl, rfl⟩ (by decide +kernel)
  obtain ⟨hidle, htx, hshut, hhand, hqueue, hentered⟩ := of_decide_eq_true hP
  refine ⟨s, h, hs, ?_⟩
  rw [(monitor_history Mesh.two _ (by decide) s h hs 2 (by decide) false _ List.prefix_rfl).2 hidle rfl htx
    hshut hhand hqueue]
  dsimp only at hentered
  rw [hentered]
  decide +kernel

end Monitor
end Epidemica
