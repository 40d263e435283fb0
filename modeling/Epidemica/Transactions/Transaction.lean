import Mathlib.Data.List.Basic

/-!
# `Transactions.Transaction` — transactions and the replicated version

`TransactionData` is what a client submits, `Transaction` what a node stores: the `int version` of the
source, with the two's-complement arithmetic of a 32-bit `int`. The node's name, its log file and its web
socket are written to but never read back, so they are not modelled.
-/

namespace Epidemica

/-- The kinds of transaction (`enum class TransactionType`). -/
inductive TransactionType where
  | sum | substract | multiply | read | set | unkown
  deriving DecidableEq, Repr

/-- One transaction with its argument. -/
structure TransactionData where
  type : TransactionType
  value : Int32
  deriving DecidableEq, Repr

/-- A write of a client: `SUM`, `SUBSTRACT` or `MULTIPLY`. -/
def TransactionType.isWrite : TransactionType → Bool
  | .sum | .substract | .multiply => true
  | .read | .set | .unkown => false

/-- The version a node holds (`m_Transaction`). -/
structure Transaction where
  version : Int32
  deriving DecidableEq, Repr

namespace Transaction

/-- `Add`. -/
def add (t : Transaction) (value : Int32) : Transaction := { t with version := t.version + value }

/-- `Substract`. -/
def substract (t : Transaction) (value : Int32) : Transaction :=
  { t with version := t.version - value }

/-- `Multiply`. -/
def multiply (t : Transaction) (value : Int32) : Transaction :=
  { t with version := t.version * value }

/-- `SetVersion`. -/
def setVersion (t : Transaction) (value : Int32) : Transaction := { t with version := value }

end Transaction

/-- `Node::ExecuteTransaction`. `Show` only prints, and the `default` branch does nothing. -/
def Transaction.execute (t : Transaction) (d : TransactionData) : Transaction :=
  match d.type with
  | .sum => t.add d.value
  | .substract => t.substract d.value
  | .multiply => t.multiply d.value
  | .set => t.setVersion d.value
  | .read => t
  | .unkown => t

/-- Executing a list of transactions in order. -/
def Transaction.executeAll (t : Transaction) (ds : List TransactionData) : Transaction :=
  ds.foldl Transaction.execute t

@[simp] theorem Transaction.executeAll_nil (t : Transaction) : t.executeAll [] = t := rfl

@[simp] theorem Transaction.executeAll_cons (t : Transaction) (d : TransactionData)
    (ds : List TransactionData) : t.executeAll (d :: ds) = (t.execute d).executeAll ds := rfl

theorem Transaction.executeAll_append (t : Transaction) (ds es : List TransactionData) :
    t.executeAll (ds ++ es) = (t.executeAll ds).executeAll es := List.foldl_append

/-- Only a write or a `SET` can change the version. -/
theorem Transaction.execute_of_not_write (t : Transaction) {d : TransactionData}
    (hw : d.type.isWrite = false) (hs : d.type ≠ .set) : t.execute d = t := by
  obtain ⟨type, value⟩ := d
  cases type with
  | sum | substract | multiply => exact absurd hw (by simp [TransactionType.isWrite])
  | set => exact absurd rfl hs
  | read | unkown => rfl

end Epidemica
