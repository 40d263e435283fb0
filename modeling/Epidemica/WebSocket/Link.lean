import Epidemica.WebSocket.Endpoint
import Mathlib.Logic.Function.Basic

/-!
# `WebSocket.Link` — two sockets on one connection

Each side writes to its wire what the socket takes, and receives from the other side's wire any number of bytes
that are there. Either side may send, ping, close, poll and dispatch at any time, and its connection may fail
in any poll. The messages handed over on one side are those accepted on the other, in order, without loss or
duplicate, and all of them once the buffers between have been emptied (`link_delivers`).
-/

namespace Epidemica
namespace Link

open Incremental Transition WebSocket

/-- The two ends of the connection. -/
inductive Side where
  | client | server
  deriving DecidableEq, Repr

/-- The other end. -/
def Side.peer : Side → Side
  | .client => .server
  | .server => .client

@[simp] theorem Side.peer_peer (a : Side) : a.peer.peer = a := by cases a <;> rfl

theorem Side.ne_peer (a : Side) : a ≠ a.peer := by cases a <;> decide

/-- The two sockets and the bytes between them. -/
structure State where
  /-- The sockets, each with what has passed through it. -/
  ends : Side → WebSocket × Endpoint.Hist
  /-- What a side has written and its peer has not received, oldest first. -/
  wire : Side → List UInt8

/-- An operation of one side. -/
structure Label where
  side : Side
  op : Endpoint.Label
  deriving DecidableEq, Repr

/-- One operation of one side. A poll receives what is at the front of the peer's wire. -/
def step (s : State) (l : Label) : Option State :=
  let (ws, h) := s.ends l.side
  let wire := Function.update s.wire l.side (s.wire l.side ++ Endpoint.writing ws l.op)
  if Endpoint.receiving ws l.op <+: s.wire l.side.peer then
    some {
      ends := Function.update s.ends l.side (Endpoint.step ws l.op, Endpoint.record ws l.op h)
      wire := Function.update wire l.side.peer
        ((s.wire l.side.peer).drop (Endpoint.receiving ws l.op).length) }
  else none

/-- A connection that has just been made. -/
def system (useMask : Side → Bool) : System State Label where
  init s := (∀ a, s.ends a = (WebSocket.init (useMask a), Endpoint.Hist.empty)) ∧ ∀ a, s.wire a = []
  step := step

/-- The strings that are sent have sizes a string can have. -/
def fits : Guard State Label := fun s l => Endpoint.fits (s.ends l.side).1 l.op

instance : ∀ s l, Decidable (fits s l) :=
  fun s l => inferInstanceAs (Decidable (Endpoint.fits (s.ends l.side).1 l.op))

section
variable {useMask : Side → Bool} {G : Guard State Label} {s t : State} {l : Label}

/-- What a step does to the side it is taken on, to that side's wire and to the peer's. -/
theorem step_cases (hst : step s l = some t) :
    ∃ bytes, Endpoint.receiving (s.ends l.side).1 l.op ++ bytes = s.wire l.side.peer ∧
      t.ends l.side = (Endpoint.step (s.ends l.side).1 l.op,
        Endpoint.record (s.ends l.side).1 l.op (s.ends l.side).2) ∧
      t.ends l.side.peer = s.ends l.side.peer ∧
      t.wire l.side = s.wire l.side ++ Endpoint.writing (s.ends l.side).1 l.op ∧
      t.wire l.side.peer = bytes := by
  unfold step at hst
  dsimp only at hst
  split at hst
  · rename_i hpre
    obtain ⟨bytes, hbytes⟩ := hpre
    obtain rfl := Option.some.inj hst
    have hne := l.side.ne_peer
    refine ⟨bytes, hbytes, Function.update_self .., Function.update_of_ne hne.symm .., ?_, ?_⟩
    · show Function.update (Function.update _ _ _) _ _ _ = _
      rw [Function.update_of_ne hne, Function.update_self]
    · show Function.update (Function.update _ _ _) _ _ _ = _
      rw [Function.update_self, ← hbytes, List.drop_left]
  · exact absurd hst (by simp)

/-- Each end is a socket in some company. -/
theorem reachable_end (hfits : ∀ s l, G s l → fits s l) (hs : Reachable (system useMask) G s) (a : Side) :
    Reachable (Endpoint.historySystem (useMask a)) (Guard.past Endpoint.fits) (s.ends a) := by
  refine Reachable.invariant (I := fun s => Reachable (Endpoint.historySystem (useMask a))
    (Guard.past Endpoint.fits) (s.ends a)) ?_ ?_ hs
  · rintro s ⟨hends, -⟩
    rw [hends]
    exact Reachable.of_init ⟨rfl, rfl⟩
  · intro s l t _ ih hg hst
    obtain ⟨-, -, hside, hpeer, -⟩ := step_cases hst
    by_cases ha : a = l.side
    · subst ha
      rw [hside]
      refine ih.step (l := l.op) (hfits s l hg) ?_
      exact withHistory_step.mpr ⟨rfl, rfl⟩
    · have hother : a = l.side.peer := by
        cases a <;> cases hl : l.side <;> simp_all [Side.peer]
      rw [hother, hpeer, ← hother]
      exact ih

/-- What one side has written is what the other has received and what is on the wire. -/
theorem received_wire (hs : Reachable (system useMask) G s) (a : Side) :
    (s.ends a.peer).2.received ++ s.wire a = (s.ends a).2.written := by
  refine Reachable.invariant
    (I := fun s => ∀ a, (s.ends a.peer).2.received ++ s.wire a = (s.ends a).2.written) ?_ ?_ hs a
  · rintro s ⟨hends, hwire⟩ a
    rw [hends, hends, hwire]
    rfl
  · intro s l t _ ih _ hst a
    obtain ⟨bytes, hbytes, hside, hpeer, hwire, hrest⟩ := step_cases hst
    by_cases ha : a = l.side
    · -- the side writes
      subst ha
      rw [hpeer, hwire, hside, ← List.append_assoc, ih]
      rfl
    · -- the side receives
      have hother : a = l.side.peer := by
        cases a <;> cases hl : l.side <;> simp_all [Side.peer]
      subst hother
      rw [hpeer, hrest, Side.peer_peer, hside, ← ih, Side.peer_peer, ← hbytes, ← List.append_assoc]
      rfl

/-- A socket is at any time where it would be if it dispatched all it has received at once. -/
theorem dispatch_received {ws : WebSocket} {h : Endpoint.Hist} {mask : Bool}
    (hs : Reachable (Endpoint.historySystem mask) (Guard.past Endpoint.fits) (ws, h)) :
    h.calls ++ ws.dispatch.2 = ((WebSocket.init mask).feed h.received).dispatch.2 ∧
      ws.dispatch.1.isRxBad = ((WebSocket.init mask).feed h.received).dispatch.1.isRxBad := by
  have hfollows := Endpoint.follows hs
  have hall := dispatch_mute ((WebSocket.init mask).feed h.received)
  have hrest := dispatch_mute ws
  have hfollows : ((WebSocket.init mask).feed h.received).mute.dispatch =
      (ws.mute.dispatch.1, h.calls ++ ws.mute.dispatch.2) := hfollows
  rw [hall, hrest] at hfollows
  obtain ⟨hstate, hcalls⟩ := Prod.mk.inj hfollows
  exact ⟨hcalls.symm, (congrArg WebSocket.isRxBad hstate).symm⟩

end

/-- In every state, and in both directions: the messages handed over are those accepted at the other end, in
    order, up to some place; together with what a call of `dispatch` would hand over they are all of them if
    nothing waits to be written and nothing is on the wire; and the receiver has seen no bad frame. -/
theorem link_delivers (useMask : Side → Bool) (s : State) (hs : Reachable (system useMask) fits s)
    (a : Side) :
    (s.ends a.peer).2.calls <+: (s.ends a).2.accepted ∧
      ((s.ends a).1.txbuf = [] → s.wire a = [] →
        (s.ends a.peer).2.calls ++ (s.ends a.peer).1.dispatch.2 = (s.ends a).2.accepted) ∧
      (s.ends a.peer).1.dispatch.1.isRxBad = false := by
  have hsender := reachable_end (fun _ _ h => h) hs a
  have hreceiver := reachable_end (fun _ _ h => h) hs a.peer
  have hwire := received_wire hs a
  have hout := Endpoint.outgoing (fun _ _ h => h) hsender
  obtain ⟨hcalls, hflag⟩ := dispatch_received hreceiver
  have hfeed : ((WebSocket.init (useMask a.peer)).feed (s.ends a.peer).2.received).rxbuf =
      (s.ends a.peer).2.received := rfl
  obtain ⟨hbad, hpre, hall⟩ := Endpoint.received_messages hout
    ((WebSocket.init (useMask a.peer)).feed (s.ends a.peer).2.received) ⟨rfl, rfl⟩ hfeed ⟨_, hwire⟩
  refine ⟨?_, ?_, hflag.trans hbad⟩
  · rw [← hcalls] at hpre
    exact (List.prefix_append _ _).trans hpre
  · intro htx hnil
    rw [hnil, List.append_nil] at hwire
    rw [hcalls]
    exact hall hwire htx

/-- Two sockets that have just been connected. -/
def unconnected : State := ⟨fun _ => (WebSocket.init true, Endpoint.Hist.empty), fun _ => []⟩

/-- The client sends "hi" while the server pings; the frames cross, and are written and received in parts. -/
def crossing : List Label :=
  [⟨.client, .send [104, 105]⟩, ⟨.server, .sendPing⟩, ⟨.client, .poll ⟨[], false, [5], false⟩⟩,
    ⟨.server, .poll ⟨[[129, 130, 18], [52, 86]], false, [6], false⟩⟩, ⟨.server, .dispatch⟩,
    ⟨.client, .poll ⟨[[137, 128, 18, 52, 86, 120]], false, [1, 2], false⟩⟩, ⟨.client, .dispatch⟩,
    ⟨.server, .poll ⟨[[120, 122, 93]], false, [], false⟩⟩, ⟨.client, .poll ⟨[], false, [6], false⟩⟩,
    ⟨.server, .poll ⟨[[138, 128, 18, 52, 86, 120]], false, [], false⟩⟩]

/-- "hi" has arrived. -/
theorem link_delivers_crossing :
    ∃ s, Reachable (system fun _ => true) fits s ∧
      (s.ends .server).2.calls ++ (s.ends .server).1.dispatch.2 = [[104, 105]] := by
  obtain ⟨s, -, hs, hP⟩ := Reachable.of_exec (system fun _ => true) fits unconnected crossing
    (fun s => decide ((s.ends .client).1.txbuf = [] ∧ s.wire .client = [] ∧
      (s.ends .client).2.accepted = [[104, 105]])) ⟨fun _ => rfl, fun _ => rfl⟩ (by decide +kernel)
  obtain ⟨htx, hwire, haccepted⟩ := of_decide_eq_true hP
  refine ⟨s, hs, ?_⟩
  rw [← haccepted]
  exact (link_delivers (fun _ => true) s hs .client).2.1 htx hwire

end Link
end Epidemica
