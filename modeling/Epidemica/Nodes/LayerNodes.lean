import Epidemica.Nodes.MsgHandler

/-!
# `Nodes.LayerNodes` — the nodes below the core layer

`LayerOneNode` and `LayerTwoNode` hold a version that only a `SET` of the layer above changes. The
`Run` thread of a layer-one node broadcasts its version to layer two again and again; it is cut at its
statements, since a `SET` may be handled between reading the version and the sends.
-/

namespace Epidemica

/-- The branches that `LayerOneNode::HandleMsg` and `LayerTwoNode::HandleMsg` share. -/
def Transaction.handleMsg (t : Transaction) (message : Int) (tag : Tag) : Transaction :=
  match tag with
  | .read => t.execute ⟨.read, Int32.ofInt message⟩
  | .set => t.execute ⟨.set, Int32.ofInt message⟩
  | _ => t

/-- Where the thread of `LayerOneNode::Run` stands. -/
inductive RunPc where
  /-- At the head of the loop. -/
  | broadcast
  /-- In `BroadcastMsg(SET, version, LAYER_TWO)`; `todo` has not been sent to. -/
  | send (version : Int32) (todo : List Int)
  deriving DecidableEq, Repr

/-- A node of layer one: its version, and where its `Run` thread stands. -/
structure LayerOneNode where
  transaction : Transaction
  run : RunPc
  deriving DecidableEq, Repr

/-- A node of layer two: its `Run` thread does nothing. -/
structure LayerTwoNode where
  transaction : Transaction
  deriving DecidableEq, Repr

namespace LayerOneNode

/-- Version `0`, with the loop of `Run` ahead. -/
def init : LayerOneNode := ⟨⟨0⟩, .broadcast⟩

/-- The next statement of `Run`. After the last send it waits for ten seconds, which may end at any time. -/
def runStep (layerTwo : List Int) (n : LayerOneNode) : LayerOneNode × Outs :=
  match n.run with
  | .broadcast => ({ n with run := .send n.transaction.version layerTwo }, [])
  | .send v (c :: todo) => ({ n with run := .send v todo }, [(c, ⟨.set, v.toInt⟩)])
  | .send _ [] => ({ n with run := .broadcast }, [])

/-- `LayerOneNode::HandleMsg`. -/
def handleMsg (n : LayerOneNode) (message : Int) (tag : Tag) : LayerOneNode :=
  { n with transaction := n.transaction.handleMsg message tag }

/-- What the `Run` thread has read for `c` and not sent yet. -/
def unsent (c : Int) (n : LayerOneNode) : List Int32 :=
  match n.run with
  | .send v todo => if c ∈ todo then [v] else []
  | .broadcast => []

/-- The list a broadcast in progress still has to go through. -/
def todo (n : LayerOneNode) : List Int :=
  match n.run with
  | .send _ todo => todo
  | .broadcast => []

end LayerOneNode

namespace LayerTwoNode

/-- Version `0`. -/
def init : LayerTwoNode := ⟨⟨0⟩⟩

/-- `LayerTwoNode::HandleMsg`. -/
def handleMsg (n : LayerTwoNode) (message : Int) (tag : Tag) : LayerTwoNode :=
  { n with transaction := n.transaction.handleMsg message tag }

end LayerTwoNode

/-! ## What a `SET` carries -/

/-- The version a message sets, if it is a `SET`. -/
def Msg.set? (m : Msg) : Option Int32 := if m.tag = .set then some (Int32.ofInt m.value) else none

/-- The versions among a stretch of messages. -/
def setsIn (l : List Msg) : List Int32 := l.filterMap Msg.set?

@[simp] theorem setsIn_nil : setsIn [] = [] := rfl

@[simp] theorem setsIn_append (l₁ l₂ : List Msg) : setsIn (l₁ ++ l₂) = setsIn l₁ ++ setsIn l₂ :=
  List.filterMap_append

@[simp] theorem setsIn_cons (m : Msg) (l : List Msg) : setsIn (m :: l) = m.set?.toList ++ setsIn l := by
  cases h : m.set? <;> simp [setsIn, h]

/-- What is sent is what is read. -/
@[simp] theorem set?_set (v : Int32) : Msg.set? ⟨.set, v.toInt⟩ = some v := by
  simp [Msg.set?]

/-- A node below the core layer holds the last version it was set to. -/
theorem Transaction.handleMsg_version (t : Transaction) (m : Msg) :
    (t.handleMsg m.value m.tag).version = m.set?.getD t.version := by
  obtain ⟨tag, v⟩ := m
  cases tag <;> rfl

end Epidemica
