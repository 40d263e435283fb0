import Epidemica.Lib.Network
import Epidemica.Lib.Transition
import Epidemica.Nodes.CoreNode
import Epidemica.Transactions.TransactionReader

/-!
# `Controller.FileModified` — from a modified file to the nodes

`FileModifiedCallback` turns a batch into calls of `ExecuteTransaction`, one after another. What a call
does to the versions is said for calls that run to their end with nothing else under way: a write on a
core node is then executed once by every core node, which counts it and passes the tenth on to layer one.
-/

namespace Epidemica
namespace Controller

open Network Transition

/-- The indices `NODE_A1` to `NODE_A3`. -/
inductive CoreName where
  | a1 | a2 | a3
  deriving DecidableEq, Repr

/-- The indices `NODE_B1` and `NODE_B2`. -/
inductive OneName where
  | b1 | b2
  deriving DecidableEq, Repr

/-- The indices `NODE_C1` and `NODE_C2`. -/
inductive TwoName where
  | c1 | c2
  deriving DecidableEq, Repr

/-- A node of one of the three arrays. -/
inductive Node where
  | core (i : CoreName)
  | one (j : OneName)
  | two (k : TwoName)
  deriving DecidableEq, Repr

/-- `m_CoreNodes`. -/
def coreNodes : List Node := [.core .a1, .core .a2, .core .a3]

/-- `m_LayerOneNodes`. -/
def layerOneNodes : List Node := [.one .b1, .one .b2]

/-- `m_LayerTwoNodes`. -/
def layerTwoNodes : List Node := [.two .c1, .two .c2]

/-- A call of `ExecuteTransaction` on a node. -/
abbrev Call := Node × TransactionData

/-- The core node named in a file name. -/
def target (filename : List Char) : Option Node :=
  if (find ['A', '1'] filename).isSome then some (.core .a1)
  else if (find ['A', '2'] filename).isSome then some (.core .a2)
  else if (find ['A', '3'] filename).isSome then some (.core .a3)
  else none

/-- `ExecuteTransactionsOnLayer`: each transaction in turn on every node of the layer. -/
def executeTransactionsOnLayer (nodes : List Node) (transactions : List TransactionData) : List Call :=
  transactions.flatMap fun transaction => nodes.map fun node => (node, transaction)

/-- `FileModifiedCallback`, after the file has been read: the calls it makes, in order. -/
def fileModifiedCallback (filename : List Char) (batch : Transactions) : List Call :=
  if batch.readOnly = false then
    match target filename with
    | some node => batch.transactions.map fun trans => (node, trans)
    | none => []
  else
    match batch.layer with
    | 0 => executeTransactionsOnLayer coreNodes batch.transactions
    | 1 => executeTransactionsOnLayer layerOneNodes batch.transactions
    | 2 => executeTransactionsOnLayer layerTwoNodes batch.transactions
    | _ => []

/-! ## The versions of all nodes -/

/-- What every node stores. -/
structure Store where
  transaction : Node → Transaction
  writeCount : CoreName → Int

/-- The core node above a node of layer one: `A2` above `B1`, `A3` above `B2`. -/
def above : OneName → CoreName
  | .b1 => .a2
  | .b2 => .a3

/-- `m_Layers[LAYER_TWO]` of a node of layer one: `B2` holds both nodes of layer two. -/
def layerTwo : OneName → List TwoName
  | .b1 => []
  | .b2 => [.c1, .c2]

namespace Store

/-- All versions and counts are `0`. -/
def init : Store := ⟨fun _ => ⟨0⟩, fun _ => 0⟩

/-- `Node::ExecuteTransaction` on one node. -/
def execute (σ : Store) (x : Node) (d : TransactionData) : Store :=
  { σ with transaction := Function.update σ.transaction x ((σ.transaction x).execute d) }

/-- Node `i` has executed ten writes with the next one. -/
def due (σ : Store) (i : CoreName) : Bool := σ.writeCount i + 1 ≥ UPDATE_COUNT

/-- A write, from `requestCS` to the last `RELEASE`: every core node executes and counts it, and sends its
    version down if it was the tenth. -/
def write (σ : Store) (d : TransactionData) : Store where
  transaction
    | .core i => (σ.transaction (.core i)).execute d
    | .one j =>
      if σ.due (above j) then
        (σ.transaction (.one j)).execute ⟨.set, ((σ.transaction (.core (above j))).execute d).version⟩
      else σ.transaction (.one j)
    | .two k => σ.transaction (.two k)
  writeCount i := if σ.due i then 0 else σ.writeCount i + 1

/-- `ExecuteTransaction`, as each class has it. -/
def executeTransaction (σ : Store) (c : Call) : Store :=
  match c with
  | (.core i, d) => if d.type = .read then σ.execute (.core i) d else σ.write d
  | (.one j, d) => σ.execute (.one j) d
  | (.two k, d) => σ.execute (.two k) d

/-- The calls of a callback, one after another. -/
def run (σ : Store) (calls : List Call) : Store := calls.foldl executeTransaction σ

/-- The `Run` thread of a node of layer one sends its version down. -/
def broadcast (σ : Store) (j : OneName) : Store where
  transaction
    | .two k =>
      if k ∈ layerTwo j then
        (σ.transaction (.two k)).execute ⟨.set, (σ.transaction (.one j)).version⟩
      else σ.transaction (.two k)
    | x => σ.transaction x
  writeCount := σ.writeCount

@[simp] theorem run_nil (σ : Store) : σ.run [] = σ := rfl

@[simp] theorem run_cons (σ : Store) (c : Call) (calls : List Call) :
    σ.run (c :: calls) = (σ.executeTransaction c).run calls := rfl

theorem execute_transaction (σ : Store) (x y : Node) (d : TransactionData) :
    (σ.execute x d).transaction y =
      if y = x then (σ.transaction x).execute d else σ.transaction y := by
  by_cases h : y = x <;> simp [execute, h]

/-- A read changes nothing. -/
theorem execute_read (σ : Store) (x : Node) {d : TransactionData} (h : d.type = .read) :
    σ.execute x d = σ := by
  have hsame : (σ.transaction x).execute d = σ.transaction x :=
    Transaction.execute_of_not_write _ (by simp [h, TransactionType.isWrite]) (by simp [h])
  unfold execute
  rw [hsame, Function.update_eq_self]

end Store

/-- What happens to the store. -/
inductive Label where
  /-- A file is modified; `file` is `none` if it cannot be opened. -/
  | modified (filename : List Char) (uninit : Int × Bool) (file : Option (List Char))
  /-- A node of layer one sends its version down. -/
  | broadcast (j : OneName)
  deriving DecidableEq, Repr

/-- A callback from its beginning to its end, or a round of a `Run` thread. -/
def step (σ : Store) : Label → Option Store
  | .modified filename uninit file =>
    some (σ.run (fileModifiedCallback filename (readTransactions uninit file)))
  | .broadcast j => some (σ.broadcast j)

/-- The controller at work, one callback at a time. -/
def system : System Store Label := ⟨fun σ => σ = Store.init, step⟩

/-! ## Which node is called with what -/

/-- Every node of the layer is called with the whole batch, and no other node. -/
theorem select_onLayer {nodes : List Node} (hnd : nodes.Nodup) (ts : List TransactionData) (x : Node) :
    select x (executeTransactionsOnLayer nodes ts) = if x ∈ nodes then ts else [] := by
  induction ts with
  | nil => simp [executeTransactionsOnLayer]
  | cons t ts ih =>
    have hcons : executeTransactionsOnLayer nodes (t :: ts) =
        (nodes.map fun node => (node, t)) ++ executeTransactionsOnLayer nodes ts := rfl
    rw [hcons, select_append, select_broadcast x t hnd, ih]
    by_cases hx : x ∈ nodes <;> simp [hx]

/-- Calls without a write on a core node change each node by itself. -/
theorem run_transaction (σ : Store) (calls : List Call)
    (h : ∀ c ∈ calls, ∀ i, c.1 = .core i → c.2.type = .read) (x : Node) :
    (σ.run calls).transaction x = (σ.transaction x).executeAll (select x calls) := by
  induction calls generalizing σ with
  | nil => rfl
  | cons c calls ih =>
    obtain ⟨y, d⟩ := c
    have hhead : σ.executeTransaction (y, d) = σ.execute y d := by
      cases y with
      | core i => exact if_pos (h _ List.mem_cons_self i rfl)
      | one j => rfl
      | two k => rfl
    rw [Store.run_cons, hhead, ih _ fun c hc => h c (List.mem_cons_of_mem _ hc),
      Store.execute_transaction, select_cons, Transaction.executeAll_append]
    by_cases hxy : x = y
    · subst hxy
      simp
    · simp [hxy, Ne.symm hxy]

end Controller
end Epidemica
