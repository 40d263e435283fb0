import Epidemica.Nodes.CoreNode
import Epidemica.Lib.Transition

/-!
# `Core.System` — the core layer at work

Any number of core nodes, each with one client thread and the handlers of its connections. Messages are
delivered from any position of their connection; `fifo` is the guard that makes the connections queues.
What a client submitted, in which order the critical sections were entered and which writes each node
executed is written down in a `Hist` beside the state, which no step reads.
-/

namespace Epidemica
namespace Core

open Network Transition

/-- The nodes and the messages in flight: `chan q p` is the connection from `q` to `p`. -/
structure State where
  node : Int → CoreNode
  chan : Channels Int Msg

/-- The steps of the core layer. -/
inductive Label where
  /-- A client calls `ExecuteTransaction` on node `p`. -/
  | submit (p : Int) (d : TransactionData)
  /-- The client thread of `p` executes its next statement. -/
  | requester (p : Int)
  /-- `p` handles the message at position `i` of the connection from `q`. -/
  | handle (p q : Int) (i : Nat)
  /-- `b`, outside the core layer, takes the oldest message of the connection from `p`. -/
  | drain (p b : Int)
  deriving DecidableEq, Repr

/-- Nobody has asked for anything, and nothing is in flight. -/
def init : State := ⟨CoreNode.init, fun _ _ => []⟩

/-- Node `p` becomes `r.1` and sends `r.2`. -/
def State.put (s : State) (p : Int) (r : CoreNode × Outs) : State :=
  ⟨Function.update s.node p r.1, sendAll s.chan p r.2⟩

/-- The message at position `i` of the connection from `q` to `p` is taken out. -/
def State.take (s : State) (q p : Int) (i : Nat) : State := { s with chan := receive s.chan q p i }

/-- A step of the core layer, where it is possible: a client calls an idle node only, a thread goes on only in
    `ExecuteTransaction`, and only a message that is there is handled. -/
def step (cores : List Int) (layers : Int → Layers) (s : State) : Label → Option State
  | .submit p d =>
    if p ∈ cores ∧ (s.node p).idle then
      some (s.put p ((s.node p).executeTransaction (layers p) p d, []))
    else none
  | .requester p =>
    if p ∈ cores ∧ (s.node p).idle = false then
      some (s.put p ((s.node p).requester (layers p) p))
    else none
  | .handle p q i =>
    if p ∈ cores ∧ q ∈ layers p CORE_LAYER then
      match (s.chan q p)[i]? with
      | none => none
      | some m => some ((s.take q p i).put p ((s.node p).handleMsg (layers p) p m.value q m.tag))
    else none
  | .drain p b => if b ∉ cores ∧ s.chan p b ≠ [] then some (s.take p b 0) else none

/-- A core layer, all at version `0`. -/
def system (net : Mesh) : System State Label := ⟨fun s => s = init, step net.cores net.layers⟩

/-! ## History -/

/-- What has happened: writes are listed with the node they were submitted to. -/
structure Hist where
  submitted : List (Int × TransactionData)
  /-- In the order in which the critical sections were entered. -/
  entered : List (Int × TransactionData)
  /-- What each node has executed, in order. -/
  applied : Int → List (Int × TransactionData)

/-- Nothing has happened. -/
def Hist.empty : Hist := ⟨[], [], fun _ => []⟩

/-- The write a step submits. -/
def submitting : Label → List (Int × TransactionData)
  | .submit p d => if d.type = .read then [] else [(p, d)]
  | _ => []

/-- The write with which a step enters the critical section. -/
def entering (layers : Int → Layers) (s : State) : Label → List (Int × TransactionData)
  | .requester p => if (s.node p).enters (layers p) p then [(p, (s.node p).trans)] else []
  | _ => []

/-- The write that node `x` executes in a step: its own, or the one it handles. -/
def executing (s : State) (x : Int) : Label → List (Int × TransactionData)
  | .requester p =>
    if x = p ∧ (s.node p).mutex.pc.isInCS ∧ (s.node p).cs = .execute then [(p, (s.node p).trans)]
    else []
  | .handle p q i =>
    if x = p then ((s.chan q p)[i]?.bind Msg.write?).toList.map fun d => (q, d) else []
  | _ => []

/-- What a step adds to the history. -/
def record (layers : Int → Layers) (s : State) (l : Label) (h : Hist) : Hist where
  submitted := h.submitted ++ submitting l
  entered := h.entered ++ entering layers s l
  applied x := h.applied x ++ executing s x l

/-- The core layer with its history. -/
def historySystem (net : Mesh) : System (State × Hist) Label :=
  (system net).withHistory Hist.empty (record net.layers)

/-! ## Guards -/

/-- Clients submit what `parseTransaction` yields: `SUM`, `SUBSTRACT`, `MULTIPLY` or `READ`. -/
def clients : Guard State Label
  | _, .submit _ d => d.type.isWrite = true ∨ d.type = .read
  | _, _ => True

/-- Connections deliver in the order of sending. -/
def fifo : Guard State Label
  | _, .handle _ _ i => i = 0
  | _, _ => True

instance : ∀ s l, Decidable (clients s l)
  | _, .submit _ d => inferInstanceAs (Decidable (d.type.isWrite = true ∨ d.type = .read))
  | _, .requester _ | _, .handle _ _ _ | _, .drain _ _ => isTrue trivial

instance : ∀ s l, Decidable (fifo s l)
  | _, .handle _ _ i => inferInstanceAs (Decidable (i = 0))
  | _, .submit _ _ | _, .requester _ | _, .drain _ _ => isTrue trivial

/-! ## Inversion -/

section
variable {cores : List Int} {layers : Int → Layers} {s t : State} {p q b : Int} {i : Nat}
  {d : TransactionData}

/-- A step with its history. -/
theorem history_step {net : Mesh} {h k : Hist} {l : Label}
    (hst : (historySystem net).step (s, h) l = some (t, k)) :
    (system net).step s l = some t ∧ k = record net.layers s l h :=
  withHistory_step.mp hst

theorem step_submit (h : step cores layers s (.submit p d) = some t) :
    p ∈ cores ∧ (s.node p).idle = true ∧
      t = s.put p ((s.node p).executeTransaction (layers p) p d, []) := by
  simp only [step] at h
  split at h
  · rename_i hp
    exact ⟨hp.1, hp.2, (Option.some.inj h).symm⟩
  · exact absurd h (by simp)

theorem step_requester (h : step cores layers s (.requester p) = some t) :
    p ∈ cores ∧ (s.node p).idle = false ∧ t = s.put p ((s.node p).requester (layers p) p) := by
  simp only [step] at h
  split at h
  · rename_i hp
    exact ⟨hp.1, hp.2, (Option.some.inj h).symm⟩
  · exact absurd h (by simp)

theorem step_handle (h : step cores layers s (.handle p q i) = some t) :
    p ∈ cores ∧ q ∈ layers p CORE_LAYER ∧ ∃ m, (s.chan q p)[i]? = some m ∧
      t = (s.take q p i).put p ((s.node p).handleMsg (layers p) p m.value q m.tag) := by
  simp only [step] at h
  split at h
  · rename_i hpq
    split at h
    · exact absurd h (by simp)
    · rename_i m hm
      exact ⟨hpq.1, hpq.2, m, hm, (Option.some.inj h).symm⟩
  · exact absurd h (by simp)

theorem step_drain (layers : Int → Layers) (h : step cores layers s (.drain p b) = some t) :
    b ∉ cores ∧ s.chan p b ≠ [] ∧ t = s.take p b 0 := by
  simp only [step] at h
  split at h
  · rename_i hb
    exact ⟨hb.1, hb.2, (Option.some.inj h).symm⟩
  · exact absurd h (by simp)

end

@[simp] theorem put_node (s : State) (p : Int) (r : CoreNode × Outs) (a : Int) :
    (s.put p r).node a = if a = p then r.1 else s.node a := by
  by_cases h : a = p <;> simp [State.put, h]

@[simp] theorem put_chan (s : State) (p : Int) (r : CoreNode × Outs) (a b : Int) :
    (s.put p r).chan a b = if a = p then s.chan a b ++ select b r.2 else s.chan a b :=
  sendAll_apply _ _ _ _ _

@[simp] theorem take_node (s : State) (q p : Int) (i : Nat) : (s.take q p i).node = s.node := rfl

@[simp] theorem take_chan (s : State) (q p : Int) (i : Nat) (a b : Int) :
    (s.take q p i).chan a b = if a = q ∧ b = p then (s.chan a b).eraseIdx i else s.chan a b :=
  receive_apply _ _ _ _ _ _

end Core
end Epidemica
