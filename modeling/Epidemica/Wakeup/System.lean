import Epidemica.Nodes.Handler
import Epidemica.Lib.Transition

/-!
# `Wakeup.System` — the core layer with its condition variables

`wait(lock, pred)` is a loop: evaluate `pred`; if it is false, release the lock and block in one step;
when notified, take the lock again and repeat. The handlers do not take the lock of either wait, so a
handler statement can fall between the evaluation and the block. Here every statement of a handler call
is a step of its own.
-/

namespace Epidemica

open Network Transition

/-- The statement notifies the condition variable at which the client thread stands. -/
def Op.notifies (op : Op) (n : CoreNode) : Bool :=
  match op with
  | .notifyWait => n.mutex.pc.isWait
  | .notifyTransaction => n.mutex.pc.isInCS && n.cs = .waitReady
  | _ => false

namespace Wakeup

/-- The client thread, relative to the wait it stands at. -/
inductive Thread where
  /-- At work, or about to evaluate the predicate. -/
  | running
  /-- The predicate was false; the thread is about to block. -/
  | blocking
  /-- Blocked until notified. -/
  | blocked
  deriving DecidableEq, Repr

/-- A node with the statements left of the handler call under way; handler calls of one node exclude each
    other by `mtx_CallbackWait`. -/
structure Node where
  core : CoreNode
  thread : Thread
  call : List Op

/-- The nodes and the messages in flight. -/
structure State where
  node : Int → Node
  chan : Channels Int Msg

/-- The steps of the core layer, with those of its handlers statement by statement. -/
inductive Label where
  /-- A client calls `ExecuteTransaction` on node `p`. -/
  | submit (p : Int) (d : TransactionData)
  /-- The client thread of `p` executes its next statement. -/
  | client (p : Int)
  /-- `p` starts to handle the message at position `i` of the connection from `q`. -/
  | call (p q : Int) (i : Nat)
  /-- The handler of `p` executes its next statement. -/
  | handler (p : Int)
  /-- `b`, outside the core layer, takes the oldest message of the connection from `p`. -/
  | drain (p b : Int)
  deriving DecidableEq, Repr

/-- As `Core.init`: every client thread is idle and no handler is called. -/
def init : State := ⟨fun p => ⟨CoreNode.init p, .running, []⟩, fun _ _ => []⟩

/-- Node `p` becomes `n` and sends `outs`. -/
def State.put (s : State) (p : Int) (n : Node) (outs : Outs) : State :=
  ⟨Function.update s.node p n, sendAll s.chan p outs⟩

/-- The next statement of the client thread. At a wait it evaluates the predicate, then blocks. -/
def Node.client (L : Layers) (me : Int) (n : Node) : Option (Node × Outs) :=
  match n.thread with
  | .blocked => none
  | .blocking => some ({ n with thread := .blocked }, [])
  | .running =>
    if n.core.standing = true ∧ ¬ n.core.wakes L me then some ({ n with thread := .blocking }, [])
    else
      let r := n.core.requester L me
      some ({ n with core := r.1 }, r.2)

/-- The next statement of the handler. A notify wakes a thread that is blocked, and no other. -/
def Node.handler (L : Layers) (me : Int) (n : Node) : Option (Node × Outs) :=
  match n.call with
  | [] => none
  | op :: rest =>
    let r := n.core.execOp L me op
    some ({
        core := r.node
        thread := if op.notifies n.core ∧ n.thread = .blocked then .running else n.thread
        call := r.branch ++ rest }, r.outs)

/-- A step of the core layer. A handler is called when the one before has returned. -/
def step (net : Mesh) (s : State) : Label → Option State
  | .submit p d =>
    let n := s.node p
    if p ∈ net.cores ∧ n.core.idle then
      some (s.put p { n with core := n.core.executeTransaction (net.layers p) p d } [])
    else none
  | .client p =>
    if p ∈ net.cores ∧ (s.node p).core.idle = false then
      ((s.node p).client (net.layers p) p).map fun r => s.put p r.1 r.2
    else none
  | .call p q i =>
    if p ∈ net.cores ∧ q ∈ net.peers p ∧ (s.node p).call = [] then
      match (s.chan q p)[i]? with
      | none => none
      | some m =>
        some (State.put { s with chan := receive s.chan q p i } p
          { s.node p with call := handlerOps m q } [])
    else none
  | .handler p =>
    if p ∈ net.cores then ((s.node p).handler (net.layers p) p).map fun r => s.put p r.1 r.2
    else none
  | .drain p b =>
    if b ∉ net.cores ∧ s.chan p b ≠ [] then some { s with chan := receive s.chan p b 0 } else none

/-- The core layer with its condition variables. -/
def system (net : Mesh) : System State Label := ⟨fun s => s = init, step net⟩

/-- No `notify` of a condition variable is executed on a node whose client thread has found the predicate
    of that wait false, has not blocked yet, and would find it true now. -/
def noLostNotify (net : Mesh) : Guard State Label
  | s, .handler p =>
    ∀ op ∈ (s.node p).call.head?, op.notifies (s.node p).core = true →
      (s.node p).thread = .blocking → ¬ (s.node p).core.wakes (net.layers p) p
  | _, _ => True

instance (net : Mesh) : ∀ s l, Decidable (noLostNotify net s l)
  | s, .handler p => inferInstanceAs (Decidable (∀ op ∈ (s.node p).call.head?,
      op.notifies (s.node p).core = true → (s.node p).thread = .blocking →
        ¬ (s.node p).core.wakes (net.layers p) p))
  | _, .submit _ _ | _, .client _ | _, .call _ _ _ | _, .drain _ _ => isTrue trivial

@[simp] theorem put_node (s : State) (p : Int) (n : Node) (outs : Outs) (a : Int) :
    (s.put p n outs).node a = if a = p then n else s.node a := by
  by_cases h : a = p <;> simp [State.put, h]

/-! ## Inversion -/

/-- What a step does to one node. -/
inductive NodeStep (net : Mesh) (p : Int) (n : Node) : Label → Node → Prop where
  | submit (d : TransactionData) : n.core.idle = true →
      NodeStep net p n (.submit p d)
        { n with core := n.core.executeTransaction (net.layers p) p d }
  | client (r : Node × Outs) : n.client (net.layers p) p = some r →
      NodeStep net p n (.client p) r.1
  | call (m : Msg) (q : Int) (i : Nat) : n.call = [] →
      NodeStep net p n (.call p q i) { n with call := handlerOps m q }
  | handler (r : Node × Outs) : n.handler (net.layers p) p = some r →
      NodeStep net p n (.handler p) r.1

theorem put_step {net : Mesh} {s : State} {l : Label} {p : Int} {n : Node} (outs : Outs)
    (h : NodeStep net p (s.node p) l n) (a : Int) :
    (s.put p n outs).node a = s.node a ∨
      NodeStep net a (s.node a) l ((s.put p n outs).node a) := by
  rw [put_node]
  split
  · rename_i ha
    subst ha
    exact Or.inr h
  · exact Or.inl rfl

/-- A step leaves a node alone or is a step of that node. -/
theorem node_step {net : Mesh} {s t : State} {l : Label} (h : step net s l = some t) (a : Int) :
    t.node a = s.node a ∨ NodeStep net a (s.node a) l (t.node a) := by
  cases l with
  | submit p d =>
    simp only [step] at h
    split at h
    · rename_i hp
      obtain rfl := Option.some.inj h
      exact put_step [] (NodeStep.submit d hp.2) a
    · exact absurd h (by simp)
  | client p =>
    simp only [step] at h
    split at h
    · obtain ⟨r, hr, rfl⟩ := Option.map_eq_some_iff.mp h
      exact put_step r.2 (NodeStep.client r hr) a
    · exact absurd h (by simp)
  | call p q i =>
    simp only [step] at h
    split at h
    · rename_i hp
      split at h
      · exact absurd h (by simp)
      · rename_i m hm
        obtain rfl := Option.some.inj h
        exact put_step (s := { s with chan := receive s.chan q p i }) []
          (NodeStep.call m q i hp.2.2) a
    · exact absurd h (by simp)
  | handler p =>
    simp only [step] at h
    split at h
    · obtain ⟨r, hr, rfl⟩ := Option.map_eq_some_iff.mp h
      exact put_step r.2 (NodeStep.handler r hr) a
    · exact absurd h (by simp)
  | drain p b =>
    simp only [step] at h
    split at h
    · obtain rfl := Option.some.inj h
      exact Or.inl rfl
    · exact absurd h (by simp)

end Wakeup
end Epidemica
