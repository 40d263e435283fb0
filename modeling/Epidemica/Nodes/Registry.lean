import Epidemica.Nodes.MsgHandler
import Mathlib.Data.List.Count
import Mathlib.Data.List.Infix
import Mathlib.Data.List.Nodup

/-!
# `Nodes.Registry` — what a node knows about its peers

`Connect` and `IncommingConnection` enter a peer in three places: its socket in `m_Sockets`, its id in
`m_Layers`, and a task that runs `ClientService`. Each does so under `mtx_Data`, `Connect` once for every
port. A step here is one such block; those of several threads may come in any order.
-/

namespace Epidemica

/-- `sockets` are the keys of `m_Sockets`, `services` the ids that `StartClientService` was called with. -/
structure Registry where
  layers : Layers
  sockets : List Int
  services : List Int

namespace Registry

/-- No peer is known. -/
def empty : Registry := ⟨fun _ => [], [], []⟩

/-- `m_Sockets.try_emplace`: a known id keeps its socket. -/
def tryEmplace (r : Registry) (id : Int) : Registry :=
  { r with sockets := if id ∈ r.sockets then r.sockets else r.sockets ++ [id] }

/-- `m_Layers[layer].push_back(id)` and `StartClientService(id)`. -/
def enter (r : Registry) (id : Int) (layer : Fin 3) : Registry :=
  { r with
    layers := Function.update r.layers layer (r.layers layer ++ [id])
    services := r.services ++ [id] }

theorem level_lt {level : Int} (h : level > -1 ∧ level < 3) : level.toNat < 3 := by omega

/-- The level of a handshake, if it is in range. -/
def level? (level : Int) : Option (Fin 3) :=
  if h : level > -1 ∧ level < 3 then some ⟨level.toNat, level_lt h⟩ else none

/-- The block of `Connect` under `mtx_Data`. -/
def connect (r : Registry) (port : Int) (layer : Fin 3) : Registry :=
  (r.tryEmplace port).enter port layer

/-- `IncommingConnection`, with what it receives. -/
def incommingConnection (r : Registry) (id level : Int) : Registry :=
  match level? level with
  | some layer => (r.tryEmplace id).enter id layer
  | none => r.tryEmplace id

@[simp] theorem level?_val (layer : Fin 3) : level? layer = some layer := by
  unfold level?
  rw [dif_pos (by omega)]
  rfl

/-! ## Steps -/

/-- The ways in which a peer becomes known. -/
inductive Step where
  | connect (port : Int) (layer : Fin 3)
  | incomming (id level : Int)
  deriving DecidableEq, Repr

/-- The peer. -/
def Step.id : Step → Int
  | .connect port _ => port
  | .incomming id _ => id

/-- The layer the id is entered in. -/
def Step.layer? : Step → Option (Fin 3)
  | .connect _ layer => some layer
  | .incomming _ level => level? level

/-- What a step does to the three places. -/
def step (r : Registry) : Step → Registry
  | .connect port layer => r.connect port layer
  | .incomming id level => r.incommingConnection id level

/-- The registry after steps from the empty one on. -/
def run (steps : List Step) : Registry := steps.foldl step empty

/-- The ids in the lists of `m_Layers`, taken together. -/
def ids (L : Layers) : List Int := L CORE_LAYER ++ L LAYER_ONE ++ L LAYER_TWO

/-- Every peer is entered once in each of the three places. -/
structure Consistent (r : Registry) : Prop where
  nodup : (ids r.layers).Nodup
  keys : ∀ id, id ∈ ids r.layers ↔ id ∈ r.sockets
  service : ∀ id ∈ r.sockets, r.services.count id = 1

/-- A step that enters a peer is about a new one, and one that refuses a peer about a known one. -/
def Orderly (pre : List Step) (x : Step) : Prop :=
  if x.layer?.isSome then x.id ∉ pre.map Step.id else x.id ∈ pre.map Step.id

instance (pre : List Step) (x : Step) : Decidable (Orderly pre x) :=
  inferInstanceAs
    (Decidable (if x.layer?.isSome then x.id ∉ pre.map Step.id else x.id ∈ pre.map Step.id))

/-! ## What a run leaves -/

theorem run_append (pre : List Step) (x : Step) : run (pre ++ [x]) = (run pre).step x := by
  unfold run
  rw [List.foldl_append]
  rfl

theorem step_eq (r : Registry) (x : Step) :
    r.step x = match x.layer? with
      | some layer => (r.tryEmplace x.id).enter x.id layer
      | none => r.tryEmplace x.id := by
  cases x <;> rfl

theorem mem_sockets_step (r : Registry) (x : Step) (a : Int) :
    a ∈ (r.step x).sockets ↔ a ∈ r.sockets ∨ a = x.id := by
  have hemplace : a ∈ (r.tryEmplace x.id).sockets ↔ a ∈ r.sockets ∨ a = x.id := by
    unfold tryEmplace
    by_cases h : x.id ∈ r.sockets
    · simp only [if_pos h]
      exact ⟨Or.inl, fun ha => ha.elim id (fun he => he ▸ h)⟩
    · simp [if_neg h]
  rw [step_eq]
  split
  · exact hemplace
  · exact hemplace

/-- The lists grow by the id of the step, in the layer it names. -/
theorem mem_layers_step {r : Registry} {x : Step} {layer : Fin 3} (hx : x.layer? = some layer)
    (i : Fin 3) (a : Int) :
    a ∈ (r.step x).layers i ↔ a ∈ r.layers i ∨ (a = x.id ∧ i = layer) := by
  rw [step_eq, hx]
  show a ∈ Function.update r.layers layer (r.layers layer ++ [x.id]) i ↔ _
  by_cases hi : i = layer
  · subst hi
    simp
  · simp [hi]

/-- A list that grows by an id makes them all together grow by it. -/
theorem ids_update (L : Layers) (layer : Fin 3) (id : Int) :
    (ids (Function.update L layer (L layer ++ [id]))).Perm (id :: ids L) := by
  rw [List.perm_iff_count]
  intro a
  simp only [ids, CORE_LAYER, LAYER_ONE, LAYER_TWO, List.count_append, List.count_cons]
  match layer with
  | 0 =>
    simp [List.count_cons]
    omega
  | 1 =>
    simp [List.count_cons]
    omega
  | 2 =>
    simp [List.count_cons]
    omega

theorem ids_step_some {r : Registry} {x : Step} {layer : Fin 3} (hx : x.layer? = some layer) :
    (ids (r.step x).layers).Perm (x.id :: ids r.layers) := by
  rw [step_eq, hx]
  exact ids_update r.layers layer x.id

theorem ids_step_none {r : Registry} {x : Step} (hx : x.layer? = none) :
    (r.step x).layers = r.layers := by
  rw [step_eq, hx]
  rfl

/-- The keys are the ids that the steps were about. -/
theorem mem_sockets (steps : List Step) (a : Int) : a ∈ (run steps).sockets ↔ a ∈ steps.map Step.id := by
  induction steps using List.reverseRecOn with
  | nil => simp [run, empty]
  | append_singleton pre x ih =>
    rw [run_append, mem_sockets_step, ih, List.map_append, List.mem_append]
    simp

/-- A task is started whenever an id is entered. -/
theorem count_services (steps : List Step) (a : Int) :
    (run steps).services.count a = (ids (run steps).layers).count a := by
  induction steps using List.reverseRecOn with
  | nil => rfl
  | append_singleton pre x ih =>
    rw [run_append]
    cases hx : x.layer? with
    | none =>
      rw [ids_step_none hx, step_eq, hx]
      exact ih
    | some layer =>
      rw [(ids_step_some hx).count_eq, List.count_cons, ← ih, step_eq, hx]
      show ((run pre).services ++ [x.id]).count a = _
      rw [List.count_append, List.count_singleton]

/-! ## When the registry is consistent -/

theorem consistent_empty : Consistent empty := ⟨List.nodup_nil, by simp [empty, ids], by simp [empty]⟩

/-- The tasks take care of themselves. -/
theorem consistent_run_iff {steps : List Step} :
    Consistent (run steps) ↔ (ids (run steps).layers).Nodup ∧
      ∀ a, a ∈ ids (run steps).layers ↔ a ∈ (run steps).sockets := by
  constructor
  · intro h
    exact ⟨h.nodup, h.keys⟩
  · rintro ⟨hnd, hkeys⟩
    refine ⟨hnd, hkeys, ?_⟩
    intro a ha
    rw [count_services]
    exact List.count_eq_one_of_mem hnd ((hkeys a).mpr ha)

/-- A step keeps a consistent registry consistent exactly if it is orderly. -/
theorem consistent_step_iff {pre : List Step} (h : Consistent (run pre)) (x : Step) :
    Consistent (run (pre ++ [x])) ↔ Orderly pre x := by
  have hknown : x.id ∈ ids (run pre).layers ↔ x.id ∈ pre.map Step.id :=
    (h.keys x.id).trans (mem_sockets pre x.id)
  rw [consistent_run_iff, run_append]
  unfold Orderly
  cases hx : x.layer? with
  | none =>
    rw [ids_step_none hx, if_neg (by simp)]
    constructor
    · rintro ⟨-, hkeys⟩
      exact hknown.mp ((hkeys x.id).mpr ((mem_sockets_step _ _ _).mpr (Or.inr rfl)))
    · intro hmem
      refine ⟨h.nodup, ?_⟩
      intro a
      rw [mem_sockets_step, ← h.keys a]
      exact ⟨Or.inl, fun ha => ha.elim (fun h => h) (fun he => he ▸ hknown.mpr hmem)⟩
  | some layer =>
    rw [(ids_step_some hx).nodup_iff, List.nodup_cons, hknown, if_pos (by simp)]
    constructor
    · rintro ⟨⟨hnew, -⟩, -⟩
      exact hnew
    · intro hnew
      refine ⟨⟨hnew, h.nodup⟩, ?_⟩
      intro a
      rw [(ids_step_some hx).mem_iff, mem_sockets_step, ← h.keys a, List.mem_cons, or_comm]

/-- The peers that are refused leave the tables as they were. -/
def Refuses (pre : List Step) (x : Step) : Prop :=
  x.layer? = none →
    (run (pre ++ [x])).layers = (run pre).layers ∧ (run (pre ++ [x])).sockets = (run pre).sockets

theorem refuses_of_orderly {pre : List Step} {x : Step} (h : Orderly pre x) : Refuses pre x := by
  intro hx
  unfold Orderly at h
  rw [hx, if_neg (by simp), ← mem_sockets] at h
  rw [run_append, step_eq, hx]
  exact ⟨rfl, if_pos h⟩

/-- The registry is consistent after every step, and unchanged by every refusal, if and only if every step
    is orderly. -/
theorem consistent_run (steps : List Step) :
    (∀ pre, pre <+: steps → Consistent (run pre)) ∧
        (∀ pre x, pre ++ [x] <+: steps → Refuses pre x) ↔
      ∀ pre x, pre ++ [x] <+: steps → Orderly pre x := by
  constructor
  · rintro ⟨hcons, -⟩ pre x hpre
    exact (consistent_step_iff (hcons pre ((List.prefix_append pre [x]).trans hpre)) x).mp (hcons _ hpre)
  · intro h
    refine ⟨?_, fun pre x hpre => refuses_of_orderly (h pre x hpre)⟩
    intro pre
    induction pre using List.reverseRecOn with
    | nil => exact fun _ => consistent_empty
    | append_singleton pre x ih =>
      intro hpre
      exact (consistent_step_iff (ih ((List.prefix_append pre [x]).trans hpre)) x).mpr (h pre x hpre)

/-- A refused peer leaves its socket behind. -/
theorem refused_keeps_socket :
    ¬ ((∀ pre, pre <+: [.incomming 5 3] → Consistent (run pre)) ∧
      ∀ pre x, pre ++ [x] <+: [.incomming 5 3] → Refuses pre x) := by
  rintro ⟨-, h⟩
  exact absurd (h [] (.incomming 5 3) (by decide) (by decide)).2 (by decide)

/-- A peer that is connected to twice is sent every broadcast twice. -/
example : broadcastMsg (run [.connect 8889 CORE_LAYER, .connect 8889 CORE_LAYER]).layers .sum 3 CORE_LAYER =
    [(8889, ⟨.sum, 3⟩), (8889, ⟨.sum, 3⟩)] := by decide

/-- In a consistent registry a broadcast goes to each peer of the layer once. -/
theorem Consistent.nodup_broadcastMsg {r : Registry} (h : Consistent r) (tag : Tag) (msg : Int)
    (layer : Fin 3) : ((broadcastMsg r.layers tag msg layer).map Prod.fst).Nodup := by
  have hlayer : (r.layers layer).Sublist (ids r.layers) := by
    unfold ids
    match layer with
    | 0 => exact (List.sublist_append_left _ _).trans (List.sublist_append_left _ _)
    | 1 => exact (List.sublist_append_right _ _).trans (List.sublist_append_left _ _)
    | 2 => exact List.sublist_append_right _ _
  unfold broadcastMsg
  rw [List.map_map]
  show ((r.layers layer).map id).Nodup
  rw [List.map_id]
  exact h.nodup.sublist hlayer

end Registry
end Epidemica
