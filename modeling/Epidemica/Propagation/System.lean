import Epidemica.Nodes.LayerNodes
import Epidemica.Core.Replication

/-!
# `Propagation.System` — the core layer with the layers below it

Every layer-one node hangs below one core node and every layer-two node below one layer-one node, as in
`Controller::Run`, for any number of nodes. The core layer works as in `Core.System`; the layer-one nodes
take the `SET`s out of its connections, and connections of their own lead to layer two. What each node
has been set to is written down beside the history of the core layer.
-/

namespace Epidemica

open Network Transition

/-- The wiring below a core layer. -/
structure Tree where
  mesh : Mesh
  /-- The layer-one nodes. -/
  ones : List Int
  /-- `m_Layers[LAYER_TWO]` of each layer-one node. -/
  layerTwo : Int → List Int
  mem_ones : ∀ b, b ∈ ones ↔ ∃ a ∈ mesh.cores, b ∈ mesh.layers a LAYER_ONE
  one_nodup : ∀ a ∈ mesh.cores, (mesh.layers a LAYER_ONE).Nodup
  one_above : ∀ a ∈ mesh.cores, ∀ a' ∈ mesh.cores, ∀ b ∈ mesh.layers a LAYER_ONE,
    b ∈ mesh.layers a' LAYER_ONE → a = a'
  two_nodup : ∀ b ∈ ones, (layerTwo b).Nodup
  two_above : ∀ b ∈ ones, ∀ b' ∈ ones, ∀ c ∈ layerTwo b, c ∈ layerTwo b' → b = b'

/-- The wiring of `Controller::Run`: `A1`, `A2`, `A3` are `8888` to `8890`, `B1` hangs below `A2`, `B2`
    below `A3`, and `C1` and `C2` below `B2`. -/
def Tree.controller : Tree where
  mesh := Mesh.attached [8888, 8889, 8890] (by decide)
    (fun p => if p = 8889 then [8891] else if p = 8890 then [8892] else []) (by decide)
  ones := [8891, 8892]
  layerTwo b := if b = 8892 then [8893, 8894] else []
  mem_ones b := by
    simp [Mesh.attached]
  one_nodup := by decide
  one_above := by decide
  two_nodup := by decide
  two_above := by decide

namespace Propagation

/-- `down b c` is the connection from the layer-one node `b` to the layer-two node `c`. -/
structure State where
  core : Core.State
  one : Int → LayerOneNode
  two : Int → LayerTwoNode
  down : Channels Int Msg

/-- The steps of the three layers. -/
inductive Label where
  /-- A step of the core layer. -/
  | core (l : Core.Label)
  /-- The layer-one node `b` handles the oldest message of the core node `a`. -/
  | handleOne (a b : Int)
  /-- The `Run` thread of the layer-one node `b` executes its next statement. -/
  | run (b : Int)
  /-- The layer-two node `c` handles the oldest message of the layer-one node `b`. -/
  | handleTwo (b c : Int)
  deriving DecidableEq, Repr

/-- All nodes are at version `0`, and nothing is in flight. -/
def init : State := ⟨Core.init, fun _ => LayerOneNode.init, fun _ => LayerTwoNode.init, fun _ _ => []⟩

/-- The step of the core layer that a step contains. -/
def Label.toCore : Label → Option Core.Label
  | .core l => some l
  | .handleOne a b => some (.drain a b)
  | _ => none

/-- A step of the three layers. What is taken off a connection from the core layer is handled below it. -/
def step (T : Tree) (s : State) : Label → Option State
  | .core (.drain _ _) => none
  | .core l => (Core.step T.mesh.cores T.mesh.layers s.core l).map fun t => { s with core := t }
  | .handleOne a b =>
    match s.core.chan a b with
    | [] => none
    | m :: _ =>
      (Core.step T.mesh.cores T.mesh.layers s.core (.drain a b)).map fun t =>
        { s with core := t, one := Function.update s.one b ((s.one b).handleMsg m.value m.tag) }
  | .run b =>
    if b ∈ T.ones then
      let r := (s.one b).runStep (T.layerTwo b)
      some { s with one := Function.update s.one b r.1, down := sendAll s.down b r.2 }
    else none
  | .handleTwo b c =>
    match s.down b c with
    | [] => none
    | m :: _ =>
      some { s with
        two := Function.update s.two c ((s.two c).handleMsg m.value m.tag)
        down := receive s.down b c 0 }

/-- The three layers over the wiring of a tree. -/
def system (T : Tree) : System State Label := ⟨fun s => s = init, step T⟩

/-- What has happened: `sets b` and `copies c` are the versions that a layer-one node `b` and a layer-two
    node `c` were set to, in order. -/
structure Hist where
  core : Core.Hist
  sets : Int → List Int32
  copies : Int → List Int32

/-- Nothing has happened. -/
def Hist.empty : Hist := ⟨Core.Hist.empty, fun _ => [], fun _ => []⟩

/-- The version that node `x` of layer one is set to in a step. -/
def setting (s : State) (x : Int) : Label → List Int32
  | .handleOne a b => if x = b then ((s.core.chan a b).head?.bind Msg.set?).toList else []
  | _ => []

/-- The version that node `x` of layer two is set to in a step. -/
def copying (s : State) (x : Int) : Label → List Int32
  | .handleTwo b c => if x = c then ((s.down b c).head?.bind Msg.set?).toList else []
  | _ => []

/-- What a step adds to the history. -/
def record (T : Tree) (s : State) (l : Label) (h : Hist) : Hist where
  core := match l.toCore with
    | some l => Core.record T.mesh.layers s.core l h.core
    | none => h.core
  sets x := h.sets x ++ setting s x l
  copies x := h.copies x ++ copying s x l

/-- The three layers with their history. -/
def historySystem (T : Tree) : System (State × Hist) Label :=
  (system T).withHistory Hist.empty (record T)

/-- A condition on the steps of the core layer. -/
def onCore (G : Guard Core.State Core.Label) : Guard State Label
  | s, .core l => G s.core l
  | _, _ => True

instance (G : Guard Core.State Core.Label) [∀ s l, Decidable (G s l)] :
    ∀ s l, Decidable (onCore G s l)
  | s, .core l => inferInstanceAs (Decidable (G s.core l))
  | _, .handleOne _ _ | _, .run _ | _, .handleTwo _ _ => isTrue trivial

/-! ## Inversion -/

section
variable {T : Tree} {s t : State} {a b c : Int}

/-- A step with its history. -/
theorem history_step {h k : Hist} {l : Label} (hst : (historySystem T).step (s, h) l = some (t, k)) :
    step T s l = some t ∧ k = record T s l h :=
  withHistory_step.mp hst

theorem step_core {l : Core.Label} (h : step T s (.core l) = some t) :
    (∀ p b, l ≠ .drain p b) ∧ ∃ core, Core.step T.mesh.cores T.mesh.layers s.core l = some core ∧
      t = { s with core := core } := by
  cases l with
  | drain p b => exact absurd h (by simp [step])
  | _ =>
    obtain ⟨core, hcore, rfl⟩ := Option.map_eq_some_iff.mp h
    exact ⟨by simp, core, hcore, rfl⟩

theorem step_handleOne (h : step T s (.handleOne a b) = some t) :
    b ∉ T.mesh.cores ∧ ∃ m rest, s.core.chan a b = m :: rest ∧
      Core.step T.mesh.cores T.mesh.layers s.core (.drain a b) = some (s.core.take a b 0) ∧
      t = { s with
        core := s.core.take a b 0
        one := Function.update s.one b ((s.one b).handleMsg m.value m.tag) } := by
  simp only [step] at h
  split at h
  · exact absurd h (by simp)
  · rename_i m rest hc
    obtain ⟨core, hcore, rfl⟩ := Option.map_eq_some_iff.mp h
    obtain ⟨hb, -, rfl⟩ := Core.step_drain T.mesh.layers hcore
    exact ⟨hb, m, rest, hc, hcore, rfl⟩

theorem step_run (h : step T s (.run b) = some t) :
    b ∈ T.ones ∧ t = { s with
      one := Function.update s.one b ((s.one b).runStep (T.layerTwo b)).1
      down := sendAll s.down b ((s.one b).runStep (T.layerTwo b)).2 } := by
  simp only [step] at h
  split at h
  · exact ⟨‹_›, (Option.some.inj h).symm⟩
  · exact absurd h (by simp)

theorem step_handleTwo (h : step T s (.handleTwo b c) = some t) :
    ∃ m rest, s.down b c = m :: rest ∧ t = { s with
      two := Function.update s.two c ((s.two c).handleMsg m.value m.tag)
      down := receive s.down b c 0 } := by
  simp only [step] at h
  split at h
  · exact absurd h (by simp)
  · rename_i m rest hc
    exact ⟨m, rest, hc, (Option.some.inj h).symm⟩

end

/-! ## The core layer inside -/

section
variable {T : Tree} {G : Guard Core.State Core.Label}

/-- A step is a step of the core layer, or leaves it alone. -/
theorem core_step {s t : State} {l : Label} (h : step T s l = some t) :
    (∃ k, l.toCore = some k ∧ Core.step T.mesh.cores T.mesh.layers s.core k = some t.core) ∨
      (l.toCore = none ∧ t.core = s.core) := by
  cases l with
  | core l =>
    obtain ⟨-, core, hcore, rfl⟩ := step_core h
    exact Or.inl ⟨l, rfl, hcore⟩
  | handleOne a b =>
    obtain ⟨-, m, rest, -, hcore, rfl⟩ := step_handleOne h
    exact Or.inl ⟨_, rfl, hcore⟩
  | run b =>
    obtain ⟨-, rfl⟩ := step_run h
    exact Or.inr ⟨rfl, rfl⟩
  | handleTwo b c =>
    obtain ⟨m, rest, -, rfl⟩ := step_handleTwo h
    exact Or.inr ⟨rfl, rfl⟩

/-- With the layers below forgotten, a run is a run of the core layer, with the same history. -/
def coreSim (hdrain : ∀ s a b, G s (.drain a b)) :
    Simulation (historySystem T) (Guard.past (onCore G)) (Core.historySystem T.mesh)
      (Guard.past G) where
  abs y := (y.1.core, y.2.core)
  init := by
    rintro ⟨s, h⟩ ⟨rfl, rfl⟩
    exact ⟨rfl, rfl⟩
  step := by
    rintro ⟨s, h⟩ l ⟨t, k⟩ - hg hst
    replace hst := history_step hst
    obtain ⟨hst, rfl⟩ := hst
    rcases core_step hst with ⟨m, hl, hcore⟩ | ⟨hl, hcore⟩
    · -- the core layer takes the step of its own label, or the receiver's `drain`
      have hgm : G s.core m := by
        cases l with
        | core l => exact Option.some.inj hl ▸ hg
        | handleOne a b => exact Option.some.inj hl ▸ hdrain _ _ _
        | _ => exact absurd hl (by simp [Label.toCore])
      refine Run.single (l := m) hgm (withHistory_step.mpr ⟨hcore, ?_⟩)
      simp only [record, hl]
    · have hsame : (record T s l h).core = h.core := by simp only [record, hl]
      show Run _ _ (s.core, h.core) (t.core, (record T s l h).core)
      rw [hcore, hsame]
      exact Run.refl

end

end Propagation
end Epidemica
