import Epidemica.Nodes.CoreNode

/-!
# `Nodes.Handler` — a handler call, statement by statement

`CoreNode::HandleMsg` and `LamportMutex::HandleMsg` cut at their statements, the two `notify` calls among
them. A call that is not interrupted does what `CoreNode.handleMsg` says (`runOps_handlerOps`).
-/

namespace Epidemica

/-- The statements of a handler call. -/
inductive Op where
  /-- `m_Clock.RecieveAction(src, message)`. -/
  | recieveAction (src message : Int)
  /-- `m_RequestQ[src] = message`. -/
  | store (src message : Int)
  /-- `SendMsg(src, Tag::ACK, m_Clock.GetValue(m_Id))`. -/
  | sendAck (src : Int)
  /-- `m_RequestQ.erase(src)`. -/
  | erase (src : Int)
  /-- `cv_Wait.notify_all()`. -/
  | notifyWait
  /-- `m_FinishedNodes++`. -/
  | incFinished
  /-- `cv_Transaction.notify_one()`. -/
  | notifyTransaction
  /-- `Node::ExecuteTransaction`. -/
  | execute (d : TransactionData)
  /-- `m_WriteCount++`. -/
  | countWrite
  /-- `if (m_WriteCount >= 10)`. -/
  | testCount
  /-- `BroadcastMsg(Tag::SET, m_Transaction.GetVersion(), LAYER_ONE)`. -/
  | broadcastSet
  /-- `m_WriteCount = 0`. -/
  | resetCount
  /-- `SendMsg(src, Tag::READY, message)`. -/
  | sendReady (src message : Int)
  deriving DecidableEq, Repr

/-- What the mutex does with a message between `RecieveAction` and `notify_all`. -/
def mutexOps (m : Msg) (src : Int) : List Op :=
  match m.tag with
  | .request => [.store src m.value, .sendAck src]
  | .release => [.erase src]
  | _ => []

/-- The statements of `HandleMsg(m.value, src, m.tag)`. -/
def handlerOps (m : Msg) (src : Int) : List Op :=
  match m.tag with
  | .ready => [.incFinished, .notifyTransaction]
  | .read => [.execute ⟨.read, Int32.ofInt m.value⟩]
  | .sum => [.execute ⟨.sum, Int32.ofInt m.value⟩, .countWrite, .testCount, .sendReady src m.value]
  | .substract =>
    [.execute ⟨.substract, Int32.ofInt m.value⟩, .countWrite, .testCount, .sendReady src m.value]
  | .multiply =>
    [.execute ⟨.multiply, Int32.ofInt m.value⟩, .countWrite, .testCount, .sendReady src m.value]
  | _ => .recieveAction src m.value :: (mutexOps m src ++ [.notifyWait])

/-- What a statement leaves: the node, what was sent, and the statements a branch puts in front. -/
structure OpResult where
  node : CoreNode
  outs : Outs := []
  branch : List Op := []

/-- A statement of a handler. A test puts the statements of its branch in front of those that are left. -/
def CoreNode.execOp (L : Layers) (me : Int) (n : CoreNode) : Op → OpResult
  | .recieveAction src message =>
    { node := { n with mutex.lamport := n.mutex.lamport.recieveAction me src message } }
  | .store src message => { node := { n with mutex.lamport := n.mutex.lamport.enqueue src message } }
  | .sendAck src => { node := n, outs := [(src, ⟨.ack, n.mutex.lamport.clock.getValue me⟩)] }
  | .erase src => { node := { n with mutex.lamport := n.mutex.lamport.erase src } }
  | .notifyWait => { node := n }
  | .incFinished => { node := { n with finishedNodes := n.finishedNodes + 1 } }
  | .notifyTransaction => { node := n }
  | .execute d => { node := { n with transaction := n.transaction.execute d } }
  | .countWrite => { node := { n with writeCount := n.writeCount + 1 } }
  | .testCount =>
    { node := n, branch := if n.writeCount ≥ 10 then [.broadcastSet, .resetCount] else [] }
  | .broadcastSet => { node := n, outs := broadcastMsg L .set n.transaction.version.toInt LAYER_ONE }
  | .resetCount => { node := { n with writeCount := 0 } }
  | .sendReady src message => { node := n, outs := [(src, ⟨.ready, message⟩)] }

/-- Run at most `k` statements with nothing in between; `none` if more are left. -/
def CoreNode.runOps (L : Layers) (me : Int) : Nat → CoreNode → List Op → Option (CoreNode × Outs)
  | _, n, [] => some (n, [])
  | 0, _, _ :: _ => none
  | k + 1, n, op :: rest =>
    let r := n.execOp L me op
    (runOps L me k r.node (r.branch ++ rest)).map fun s => (s.1, r.outs ++ s.2)

section
variable {L : Layers} {me : Int} {n : CoreNode}

/-- The write branch. -/
theorem runOps_write (d : TransactionData) (message src : Int) :
    n.runOps L me 6 [.execute d, .countWrite, .testCount, .sendReady src message] =
      some (n.handleWrite L d message src) := by
  by_cases hten : n.writeCount + 1 ≥ 10 <;>
    simp [CoreNode.runOps, CoreNode.execOp, CoreNode.handleWrite, hten]

/-- Uninterrupted, a call ends after at most six statements and has done what `handleMsg` says. -/
theorem runOps_handlerOps (m : Msg) (src : Int) :
    n.runOps L me 6 (handlerOps m src) = some (n.handleMsg L me m.value src m.tag) := by
  obtain ⟨tag, v⟩ := m
  cases tag with
  | sum => exact runOps_write _ _ _
  | substract => exact runOps_write _ _ _
  | multiply => exact runOps_write _ _ _
  | _ => rfl

end

end Epidemica
