import Epidemica.Mutex.LamportMutex

/-!
# `Nodes.CoreNode` — a node of the core layer

`CoreNode::ExecuteTransaction` cut at its statements, for the watcher's thread, and
`CoreNode::HandleMsg` as one function, for the handlers of the connections.
-/

namespace Epidemica

/-- `#define UPDATE_COUNT 10`. -/
abbrev UPDATE_COUNT : Int := 10

/-- Where the thread stands between `requestCS()` and `releaseCS()` in `ExecuteTransaction`. -/
inductive CsPc where
  /-- In the loop that sends the write; `todo` is left of `m_Layers[CORE_LAYER]`. -/
  | sendWrite (todo : List Int)
  /-- Before `Node::ExecuteTransaction`. -/
  | execute
  /-- Before `m_WriteCount++`. -/
  | countWrite
  /-- Before `if (m_WriteCount >= UPDATE_COUNT)`. -/
  | testCount
  /-- Before `GetVersion`. -/
  | readVersion
  /-- In `BroadcastMsg(SET)` to the next layer. -/
  | sendSet (version : Int32) (todo : List Int)
  /-- Before `m_WriteCount = 0`. -/
  | resetCount
  /-- At `cv_Transaction.wait`. -/
  | waitReady
  /-- Before `m_FinishedNodes = 0`. -/
  | resetFinished
  /-- Before `releaseCS()`. -/
  | done
  deriving DecidableEq, Repr

/-- `class CoreNode`, with its client thread: `mutex.pc` and, in the critical section, `cs` say where
    that thread stands, and `trans` is the argument of `ExecuteTransaction`. -/
structure CoreNode where
  mutex : MutexNode
  cs : CsPc
  trans : TransactionData
  transaction : Transaction
  writeCount : Int
  finishedNodes : Int

namespace CoreNode

/-- A node that has just been constructed. -/
def init (me : Int) : CoreNode where
  mutex := MutexNode.init me
  cs := .done
  trans := ⟨.read, 0⟩
  transaction := ⟨0⟩
  writeCount := 0
  finishedNodes := 0

/-- No transaction of the client thread is in progress. -/
def idle (n : CoreNode) : Bool := n.mutex.pc = .idle

/-- The next step of the client thread is a true test of `okeyCS`: `requestCS` returns. -/
def enters (L : Layers) (me : Int) (n : CoreNode) : Bool :=
  n.mutex.pc.isWait && n.mutex.lamport.okeyCS (L CORE_LAYER) me

/-- The client thread stands at `cv_Wait.wait` or at `cv_Transaction.wait`. -/
def standing (n : CoreNode) : Bool :=
  n.mutex.pc.isWait || (n.mutex.pc.isInCS && n.cs = .waitReady)

/-- The client thread stands at one of its waits and the predicate of that wait is true. -/
def wakes (L : Layers) (me : Int) (n : CoreNode) : Prop :=
  (n.mutex.pc.isWait = true ∧ n.mutex.lamport.okeyCS (L CORE_LAYER) me = true) ∨
    (n.mutex.pc.isInCS = true ∧ n.cs = .waitReady ∧ n.finishedNodes = (L CORE_LAYER).length)

instance (L : Layers) (me : Int) (n : CoreNode) : Decidable (n.wakes L me) :=
  inferInstanceAs (Decidable (_ ∨ _))

/-- `ExecuteTransaction(transaction)` up to its first statement: a `READ` runs and returns, anything else
    calls `requestCS`. -/
def executeTransaction (L : Layers) (me : Int) (n : CoreNode) (d : TransactionData) : CoreNode :=
  if d.type = .read then { n with transaction := n.transaction.execute d }
  else { n with trans := d, mutex := (n.mutex.requester (L CORE_LAYER) me).1 }

/-- The next statement between `requestCS()` and `releaseCS()`. -/
def critical (L : Layers) (n : CoreNode) : CoreNode × Outs :=
  match n.cs with
  | .sendWrite (dest :: todo) => ({ n with cs := .sendWrite todo }, [(dest, n.trans.msg)])
  | .sendWrite [] => ({ n with cs := .execute }, [])
  | .execute => ({ n with transaction := n.transaction.execute n.trans, cs := .countWrite }, [])
  | .countWrite => ({ n with writeCount := n.writeCount + 1, cs := .testCount }, [])
  | .testCount =>
    ({ n with cs := if n.writeCount ≥ UPDATE_COUNT then .readVersion else .waitReady }, [])
  | .readVersion => ({ n with cs := .sendSet n.transaction.version (L LAYER_ONE) }, [])
  | .sendSet v (b :: todo) => ({ n with cs := .sendSet v todo }, [(b, ⟨.set, v.toInt⟩)])
  | .sendSet _ [] => ({ n with cs := .resetCount }, [])
  | .resetCount => ({ n with writeCount := 0, cs := .waitReady }, [])
  | .waitReady =>
    if n.finishedNodes = (L CORE_LAYER).length then ({ n with cs := .resetFinished }, []) else (n, [])
  | .resetFinished => ({ n with finishedNodes := 0, cs := .done }, [])
  | .done => (n, [])

/-- The next statement of the client thread. The return of `requestCS` starts the loop over
    `m_Layers[CORE_LAYER]`. -/
def requester (L : Layers) (me : Int) (n : CoreNode) : CoreNode × Outs :=
  if n.mutex.pc.isInCS ∧ n.cs ≠ .done then n.critical L
  else
    let r := n.mutex.requester (L CORE_LAYER) me
    ({ n with
        mutex := r.1
        cs := if r.1.pc.isInCS then .sendWrite (L CORE_LAYER) else n.cs }, r.2)

/-- The write branches of `HandleMsg`: execute, count, pass a `SET` on to the next layer after ten writes,
    and answer `READY`. -/
def handleWrite (L : Layers) (n : CoreNode) (d : TransactionData) (message src : Int) :
    CoreNode × Outs :=
  let n := { n with transaction := n.transaction.execute d }
  let n := { n with writeCount := n.writeCount + 1 }
  if n.writeCount ≥ 10 then
    ({ n with writeCount := 0 },
      broadcastMsg L .set n.transaction.version.toInt LAYER_ONE ++ [(src, ⟨.ready, message⟩)])
  else (n, [(src, ⟨.ready, message⟩)])

/-- `CoreNode::HandleMsg`. -/
def handleMsg (L : Layers) (me : Int) (n : CoreNode) (message src : Int) (tag : Tag) :
    CoreNode × Outs :=
  match tag with
  | .ready => ({ n with finishedNodes := n.finishedNodes + 1 }, [])
  | .read => ({ n with transaction := n.transaction.execute ⟨.read, Int32.ofInt message⟩ }, [])
  | .sum => n.handleWrite L ⟨.sum, Int32.ofInt message⟩ message src
  | .substract => n.handleWrite L ⟨.substract, Int32.ofInt message⟩ message src
  | .multiply => n.handleWrite L ⟨.multiply, Int32.ofInt message⟩ message src
  | _ =>
    let r := n.mutex.handle me message src tag
    ({ n with mutex := r.1 }, r.2)

end CoreNode

end Epidemica
