import Epidemica.Transactions.Transaction
import Epidemica.Lib.Network

/-!
# `Nodes.MsgHandler` — tags, messages and the tables of peers

A message is a tag and an `int`. A clock value is an `int` of the source that only grows by one at a
time; signed overflow is undefined there, so the payload is an unbounded `Int` and every run that has a
meaning in the source has the same meaning here. A payload that is a transaction argument or a version is
read back through `Int32.ofInt`.
-/

namespace Epidemica

open Network

/-- `enum class Tag`. -/
inductive Tag where
  | request | release | ok | ack | «end» | begin | terminate | ready
  | sum | substract | multiply | set | read | unkown
  deriving DecidableEq, Repr

/-- The cast `(Tag)transaction.type`. -/
def TransactionType.tag : TransactionType → Tag
  | .sum => .sum
  | .substract => .substract
  | .multiply => .multiply
  | .read => .read
  | .set => .set
  | .unkown => .unkown

/-- One frame of a connection. -/
structure Msg where
  tag : Tag
  value : Int
  deriving DecidableEq, Repr

/-- `m_Layers`: the ids of the peers in each of the `NUM_LAYERS` layers. -/
abbrev Layers := Fin 3 → List Int

abbrev CORE_LAYER : Fin 3 := 0
abbrev LAYER_ONE : Fin 3 := 1
abbrev LAYER_TWO : Fin 3 := 2

/-- Messages to send, each with its destination, in the order of the calls to `SendMsg`. -/
abbrev Outs := List (Int × Msg)

/-- `BroadcastMsg`: one `SendMsg` for each id of the layer. -/
def broadcastMsg (L : Layers) (tag : Tag) (msg : Int) (layer : Fin 3) : Outs :=
  (L layer).map fun id => (id, ⟨tag, msg⟩)

/-- A core layer as `Connect` leaves it: any number of nodes with distinct ids, each holding every other
    one in its core layer once, in any order. Nodes of the layer below have other ids. -/
structure Mesh where
  cores : List Int
  layers : Int → Layers
  nodup : ∀ p ∈ cores, (layers p CORE_LAYER).Nodup
  mem_core : ∀ p ∈ cores, ∀ q, q ∈ layers p CORE_LAYER ↔ q ∈ cores ∧ q ≠ p
  below : ∀ p ∈ cores, ∀ b ∈ layers p LAYER_ONE, b ∉ cores

/-- `GetLayer(CORE_LAYER)` of node `p`. -/
def Mesh.peers (net : Mesh) (p : Int) : List Int := net.layers p CORE_LAYER

theorem Mesh.mem_peers (net : Mesh) {p q : Int} (hp : p ∈ net.cores) :
    q ∈ net.peers p ↔ q ∈ net.cores ∧ q ≠ p := net.mem_core p hp q

/-- The mesh of given ids, with given nodes attached below each. -/
def Mesh.attached (cores : List Int) (hcores : cores.Nodup) (ones : Int → List Int)
    (hones : ∀ p ∈ cores, ∀ b ∈ ones p, b ∉ cores) : Mesh where
  cores := cores
  layers p layer :=
    if layer = CORE_LAYER then cores.filter (· ≠ p) else if layer = LAYER_ONE then ones p else []
  nodup p _ := by
    rw [if_pos rfl]
    exact hcores.filter _
  mem_core p _ q := by simp
  below p hp b hb := by
    rw [if_neg (by decide), if_pos rfl] at hb
    exact hones p hp b hb

/-- The mesh of given ids with nothing attached below it. -/
def Mesh.full (cores : List Int) (hcores : cores.Nodup) : Mesh :=
  Mesh.attached cores hcores (fun _ => []) (by simp)

/-- Two core nodes, the smallest layer in which anything is sent. -/
def Mesh.two : Mesh := Mesh.full [1, 2] (by decide)

/-- The write a message carries, if it carries one. -/
def Msg.write? (m : Msg) : Option TransactionData :=
  match m.tag with
  | .sum => some ⟨.sum, Int32.ofInt m.value⟩
  | .substract => some ⟨.substract, Int32.ofInt m.value⟩
  | .multiply => some ⟨.multiply, Int32.ofInt m.value⟩
  | _ => none

/-- The message by which a core node passes a transaction on to its peers. -/
def TransactionData.msg (d : TransactionData) : Msg := ⟨d.type.tag, d.value.toInt⟩

/-- What the writer sends is what the replica reads. -/
theorem TransactionData.write?_msg {d : TransactionData} (h : d.type.isWrite = true) :
    d.msg.write? = some d := by
  obtain ⟨type, value⟩ := d
  cases type with
  | sum | substract | multiply => simp [TransactionData.msg, Msg.write?, TransactionType.tag]
  | read | set | unkown => exact absurd h (by simp [TransactionType.isWrite])

end Epidemica
