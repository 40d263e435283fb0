import Epidemica.Controller.FileModified
import Epidemica.Propagation.Snapshots
import Mathlib.Data.List.Induction

/-!
# `Controller.Replay` — the store is what the nodes hold at rest

`Store.write` says in one step what a write does to all nodes. Here the nodes are those of
`Propagation.System` in the wiring of the controller, with every message of the protocol: whenever no
transaction is in progress and every snapshot has arrived, they hold what the store holds after the same
writes.
-/

namespace Epidemica
namespace Controller

open Network Transition

/-- The id of a node is its port. -/
def Node.id : Node → Int
  | .core .a1 => 8888
  | .core .a2 => 8889
  | .core .a3 => 8890
  | .one .b1 => 8891
  | .one .b2 => 8892
  | .two .c1 => 8893
  | .two .c2 => 8894

namespace Store

/-- Writes on core nodes, one after another. -/
def writes (σ : Store) (ds : List TransactionData) : Store := ds.foldl write σ

@[simp] theorem writes_append (σ : Store) (ds : List TransactionData) (d : TransactionData) :
    σ.writes (ds ++ [d]) = (σ.writes ds).write d := by
  simp [writes]

/-- After `n` writes every core node holds `v_n`, has counted `n` modulo ten, and layer one holds the last
    `v_(10 i)`. -/
theorem writes_init (ws : List (Int × TransactionData)) :
    (∀ i, (init.writes (ws.map Prod.snd)).transaction (.core i) =
        Transaction.executeAll ⟨0⟩ (ws.map Prod.snd)) ∧
      (∀ i, (init.writes (ws.map Prod.snd)).writeCount i = (ws.length % 10 : Nat)) ∧
      ∀ j, ((init.writes (ws.map Prod.snd)).transaction (.one j)).version =
        versionAt ws (10 * (ws.length / 10)) := by
  induction ws using List.reverseRecOn with
  | nil => exact ⟨fun _ => rfl, fun _ => rfl, fun _ => rfl⟩
  | append_singleton ws w ih =>
    obtain ⟨hcore, hcount, hone⟩ := ih
    have hlen : (ws ++ [w]).length = ws.length + 1 := by simp
    -- all core nodes have counted the same writes
    have hdue : ∀ i, (init.writes (ws.map Prod.snd)).due i = decide (ws.length % 10 = 9) := by
      intro i
      unfold due
      rw [hcount, decide_eq_decide]
      have hten : (UPDATE_COUNT : Int) = 10 := rfl
      omega
    rw [List.map_append, List.map_singleton, writes_append]
    have hnext : Transaction.executeAll ⟨0⟩ (ws.map Prod.snd ++ [w.2]) =
        (Transaction.executeAll ⟨0⟩ (ws.map Prod.snd)).execute w.2 := by
      rw [Transaction.executeAll_append]
      rfl
    refine ⟨?_, ?_, ?_⟩
    · intro i
      rw [hnext, ← hcore i]
      rfl
    · intro i
      simp only [write, hdue, hcount, hlen, decide_eq_true_eq]
      split <;> omega
    · intro j
      simp only [write, hdue, hlen, decide_eq_true_eq]
      split
      · -- the tenth write: layer one is set to the version it leaves
        rename_i hnine
        have hall : 10 * ((ws.length + 1) / 10) = (ws ++ [w]).length := by omega
        rw [hall, versionAt_length, List.map_append, List.map_singleton, hnext, ← hcore (above j)]
        rfl
      · -- no tenth write: layer one keeps what it holds
        rename_i hnine
        have hsame : 10 * ((ws.length + 1) / 10) = 10 * (ws.length / 10) := by omega
        rw [hone, hsame, versionAt_append (by omega)]

end Store

/-- At rest, after any run in which transactions came one after another, the nodes of the core layer and
    of layer one hold what the store holds after the writes that were entered. -/
theorem rest_store {s : Propagation.State} {h : Propagation.Hist}
    (hs : Reachable (Propagation.historySystem Tree.controller)
      (Guard.past (Propagation.onCore (Core.sequentialRuns Tree.controller.mesh))) (s, h))
    (hidle : ∀ p ∈ Tree.controller.mesh.cores, (s.core.node p).idle = true)
    (hdown : ∀ p ∈ Tree.controller.mesh.cores, ∀ b ∈ Tree.controller.mesh.layers p LAYER_ONE,
      setsIn (s.core.chan p b) = []) :
    (∀ i, (s.core.node (Node.core i).id).transaction =
        (Store.init.writes (h.core.entered.map Prod.snd)).transaction (.core i)) ∧
      ∀ j, (s.one (Node.one j).id).transaction =
        (Store.init.writes (h.core.entered.map Prod.snd)).transaction (.one j) := by
  obtain ⟨hcore, -, hone⟩ := Store.writes_init h.core.entered
  constructor
  · intro i
    have hmem : (Node.core i).id ∈ Tree.controller.mesh.cores := by
      cases i <;> decide
    have hquiet := Propagation.core_reachable (Propagation.quiet_of_sequential hs)
    rw [hcore]
    exact ((Core.agreement hquiet).quiescent hidle).1 _ hmem
  · intro j
    obtain ⟨ha, hb⟩ : (Node.core (above j)).id ∈ Tree.controller.mesh.cores ∧
        (Node.one j).id ∈ Tree.controller.mesh.layers (Node.core (above j)).id LAYER_ONE := by
      cases j <;> decide
    -- what `b` holds is the last of its settings, and these are all the tenth versions
    have hsets := Propagation.sets_at_rest (Propagation.quiet_of_sequential hs) ha hb hidle
      (hdown _ ha _ hb)
    have hversion : (s.one (Node.one j).id).transaction.version =
        (0 :: h.sets (Node.one j).id).getD (h.sets (Node.one j).id).length 0 :=
      Propagation.one_version hs _
    rw [hsets, length_snapshots, snapshots_getD (Nat.le_refl _), ← hone j] at hversion
    exact congrArg Transaction.mk hversion

end Controller
end Epidemica
