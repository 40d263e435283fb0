import Epidemica.Core.System
import Mathlib.Data.List.Count

/-!
# `Controller.StartUp` — the core layer while it is being connected

`Run` starts the file watcher and then connects the nodes, so a file event can call `ExecuteTransaction`
at any moment. `m_Layers` is part of the state here: `Connect` fills it on one side, and on the other the
thread that takes the handshake. A step of the core layer is the one of `Core.System`, with the tables as
they are at that moment.
-/

namespace Epidemica
namespace StartUp

open Network Transition

/-- The statements of `Run` after `watch()`. -/
inductive Stmt where
  /-- The block of `Connect` under `mtx_Data`: node `p` connects to `port`, enters it in its table and
      starts its client service. -/
  | register (p port : Int) (layer : Fin 3)
  /-- `Send({m_Id, i})`, which follows. -/
  | handshake (p port : Int) (layer : Fin 3)
  /-- `Start`. The thread of a core node only writes to the log. -/
  | start (p : Int)
  deriving DecidableEq, Repr

/-- `Connect`, for the ports of one layer. -/
def connectTo (p : Int) (layer : Fin 3) (ports : List Int) : List Stmt :=
  ports.flatMap fun port => [.register p port layer, .handshake p port layer]

/-- `Connect` on node `p`. -/
def connect (p : Int) (coreLayer layerOne layerTwo : List Int) : List Stmt :=
  connectTo p CORE_LAYER coreLayer ++ connectTo p LAYER_ONE layerOne ++ connectTo p LAYER_TWO layerTwo

/-- `Controller::Run`, from behind `m_FileWatcher.watch()`. -/
def controllerRun : List Stmt :=
  connect 8888 [8889, 8890] [] [] ++ connect 8889 [8890] [8891] [] ++ connect 8890 [] [8892] [] ++
    connect 8892 [] [] [8893, 8894] ++
    [8888, 8889, 8890, 8891, 8892, 8893, 8894].map fun p => .start p

/-- The port that a statement of `Connect` is about, and the layer it is said to be in. -/
def Stmt.target : Stmt → Option (Int × Fin 3)
  | .register _ port layer | .handshake _ port layer => some (port, layer)
  | .start _ => none

/-- A script that connects every two of its core nodes once, and knows which layer a core node is in. -/
structure Plan where
  cores : List Int
  script : List Stmt
  nodup : cores.Nodup
  once : ∀ p ∈ cores, ∀ q, script.count (.register p q CORE_LAYER) +
    script.count (.handshake q p CORE_LAYER) = if q ∈ cores ∧ q ≠ p then 1 else 0
  level : ∀ x ∈ script, ∀ t ∈ x.target, t.1 ∈ cores → t.2 = CORE_LAYER

/-- The ports of the controller's nodes. -/
def ports : List Int := [8888, 8889, 8890, 8891, 8892, 8893, 8894]

/-- The two ends of a connection. -/
def Stmt.ends : Stmt → List Int
  | .register p port _ | .handshake p port _ => [p, port]
  | .start p => [p]

theorem ends_controllerRun : ∀ x ∈ controllerRun, ∀ a ∈ x.ends, a ∈ ports := by decide

theorem nodup_controllerCores : ([8888, 8889, 8890] : List Int).Nodup := by decide

/-- What the controller does is such a plan. -/
def Plan.controller : Plan where
  cores := [8888, 8889, 8890]
  script := controllerRun
  nodup := nodup_controllerCores
  once p hp q := by
    have hinside : ∀ p ∈ [8888, 8889, 8890], ∀ q ∈ ports,
        controllerRun.count (.register p q CORE_LAYER) +
          controllerRun.count (.handshake q p CORE_LAYER) =
        if q ∈ [8888, 8889, 8890] ∧ q ≠ p then 1 else 0 := by decide
    by_cases hq : q ∈ ports
    · exact hinside p hp q hq
    · -- no statement is about another port
      have hregister : controllerRun.count (.register p q CORE_LAYER) = 0 :=
        List.count_eq_zero.mpr fun h => hq (ends_controllerRun _ h q (by simp [Stmt.ends]))
      have hhandshake : controllerRun.count (.handshake q p CORE_LAYER) = 0 :=
        List.count_eq_zero.mpr fun h => hq (ends_controllerRun _ h q (by simp [Stmt.ends]))
      have hother : ¬ (q ∈ [8888, 8889, 8890] ∧ q ≠ p) := by
        rintro ⟨hcore, -⟩
        exact hq (List.mem_of_mem_take (i := 3) hcore)
      rw [hregister, hhandshake, if_neg hother]
  level := by decide

/-- A handshake on its way. `clean` says that no message was sent ahead of it on the connection. The
    receiver would take such a message for the handshake and not register the sender. -/
structure Handshake where
  level : Fin 3
  clean : Bool
  deriving DecidableEq, Repr

/-- `todo` is left of the script, `hello q p` holds what `q` has sent to `p` in handshakes. -/
structure State where
  core : Core.State
  layers : Int → Layers
  todo : List Stmt
  hello : Channels Int Handshake

/-- The steps of the start-up. -/
inductive Label where
  /-- `Run` executes its next statement. -/
  | stmt
  /-- `p` processes the handshake of `q` (`IncommingConnection`). -/
  | accept (q p : Int)
  /-- A step of the core layer. A file event is a `submit`. -/
  | core (l : Core.Label)
  deriving DecidableEq, Repr

/-- The call of `watch()` has returned: nobody is connected, and the whole script is still to come. -/
def init (P : Plan) : State := ⟨Core.init, fun _ _ => [], P.script, fun _ _ => []⟩

/-- `m_Layers[layer].push_back(id)` on node `p`. -/
def push (layers : Int → Layers) (p : Int) (layer : Fin 3) (id : Int) : Int → Layers :=
  Function.update layers p (Function.update (layers p) layer (layers p layer ++ [id]))

/-- A step of the start-up. A `Start` only starts a thread that sends to the layer below. -/
def step (P : Plan) (s : State) : Label → Option State
  | .stmt =>
    match s.todo with
    | [] => none
    | .register p port layer :: todo =>
      some { s with todo := todo, layers := push s.layers p layer port }
    | .handshake p port layer :: todo =>
      some { s with
        todo := todo
        hello := send s.hello p port ⟨layer, s.core.chan p port = []⟩ }
    | .start _ :: todo => some { s with todo := todo }
  | .accept q p =>
    match s.hello q p with
    | [] => none
    | h :: _ =>
      some { s with
        hello := receive s.hello q p 0
        layers := if h.clean then push s.layers p h.level q else s.layers }
  | .core l => (Core.step P.cores s.layers s.core l).map fun core => { s with core := core }

/-- The start-up of a plan, with the core layer at work from the beginning. -/
def system (P : Plan) : System State Label := ⟨fun s => s = init P, step P⟩

/-! ## When a file event finds its node connected -/

/-- The statement connects `p` and another core node. -/
def Stmt.links (p : Int) : Stmt → Bool
  | .register a b layer => layer = CORE_LAYER ∧ (a = p ∨ b = p)
  | .handshake a b layer => layer = CORE_LAYER ∧ (a = p ∨ b = p)
  | .start _ => false

/-- The statements that connect `p` to other core nodes are done, and `p` has processed the handshakes
    that core nodes have sent it. -/
def connected (P : Plan) (s : State) (p : Int) : Prop :=
  (∀ x ∈ s.todo, x.links p = false) ∧ ∀ q ∈ P.cores, s.hello q p = []

instance (P : Plan) (s : State) (p : Int) : Decidable (connected P s p) :=
  inferInstanceAs (Decidable (_ ∧ _))

/-- A file event with a write comes to a node that is connected. -/
def afterConnect (P : Plan) : Guard State Label
  | s, .core (.submit p d) => d.type = .read ∨ connected P s p
  | _, _ => True

instance (P : Plan) : ∀ s l, Decidable (afterConnect P s l)
  | s, .core (.submit p d) => inferInstanceAs (Decidable (d.type = .read ∨ connected P s p))
  | _, .core (.requester _) | _, .core (.handle _ _ _) | _, .core (.drain _ _) | _, .stmt
  | _, .accept _ _ => isTrue trivial

@[simp] theorem push_apply (layers : Int → Layers) (p : Int) (layer : Fin 3) (id a : Int) (k : Fin 3) :
    push layers p layer id a k = if a = p ∧ k = layer then layers a k ++ [id] else layers a k := by
  by_cases ha : a = p
  · subst ha
    by_cases hk : k = layer
    · subst hk
      simp [push]
    · simp [push, hk]
  · simp [push, ha]

end StartUp
end Epidemica
