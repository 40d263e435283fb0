import Epidemica.Lib.Transition
import Epidemica.Nodes.Registry
import Mathlib.Data.List.Dedup

/-!
# `Nodes.Connections` — both ends of every connection

`Connect` enters each port under the layer it is listed for, opens a connection if it has none to that port,
and sends `{m_Id, i}` on it. The node at the other end takes this from a new connection as the handshake and
enters the sender under the same `i`. On a connection that exists already it arrives as a message, which no
`HandleMsg` enters anything for.
-/

namespace Epidemica
namespace Connections

open Network Transition

/-- The parameters of `Connect`: the ports for each layer. -/
abbrev Call := Fin 3 → List Int

/-- The iterations of its loop. -/
def targets (c : Call) : List (Int × Fin 3) :=
  [CORE_LAYER, LAYER_ONE, LAYER_TWO].flatMap fun i => (c i).map fun port => (port, i)

/-- Nodes with the layers they belong to, and the calls of `Connect` on them, each with its node. A port
    is listed for the layer of the node it belongs to. -/
structure Wiring where
  layer : Int → Fin 3
  calls : List (Int × Call)
  listed : ∀ c ∈ calls, ∀ t ∈ targets c.2, layer t.1 = t.2

/-- The handshake that follows the block of `Connect` under `mtx_Data`, and whether the block opened the
    connection it is sent on. -/
structure Sending where
  port : Int
  layer : Fin 3
  opened : Bool
  deriving DecidableEq, Repr

/-- `todo p` are the iterations that are left of the calls on `p`, and `hello q p` the handshakes that `q`
    has sent to `p` and `p` has not processed. -/
structure State where
  registry : Int → Registry
  todo : Int → List (Int × Fin 3)
  sending : Int → Option Sending
  hello : Channels Int Int

/-- The steps of connecting. -/
inductive Label where
  /-- `p` executes the block of its next iteration. -/
  | register (p : Int)
  /-- `Send({m_Id, i})`, which follows. -/
  | handshake (p : Int)
  /-- `p` processes a handshake of `q`. -/
  | accept (q p : Int)
  deriving DecidableEq, Repr

/-- Nobody has called `Connect` yet. -/
def init (w : Wiring) : State where
  registry _ := Registry.empty
  todo p := (select p w.calls).flatMap targets
  sending _ := none
  hello _ _ := []

/-- The state after the block of `Connect` for `port`. -/
def State.register (s : State) (p port : Int) (layer : Fin 3) (todo : List (Int × Fin 3)) : State :=
  { s with
    registry := Function.update s.registry p ((s.registry p).connect port layer)
    todo := Function.update s.todo p todo
    sending := Function.update s.sending p (some ⟨port, layer, port ∉ (s.registry p).sockets⟩) }

/-- The state after the handshake is sent. -/
def State.handshake (s : State) (p : Int) (x : Sending) : State :=
  { s with
    sending := Function.update s.sending p none
    hello := if x.opened then send s.hello p x.port x.layer else s.hello }

/-- The state after `IncommingConnection`. -/
def State.accept (s : State) (q p level : Int) : State :=
  { s with
    registry := Function.update s.registry p ((s.registry p).incommingConnection q level)
    hello := receive s.hello q p 0 }

/-- A step of connecting. A node sends the handshake of one iteration before it goes on to the next. -/
def step (s : State) : Label → Option State
  | .register p =>
    match s.sending p, s.todo p with
    | none, (port, layer) :: todo => some (s.register p port layer todo)
    | _, _ => none
  | .handshake p => (s.sending p).map (s.handshake p)
  | .accept q p => (s.hello q p).head?.map (s.accept q p)

/-- The nodes of a wiring, while they connect. -/
def system (w : Wiring) : System State Label := ⟨fun s => s = init w, step⟩

/-- All calls have returned, and all handshakes are processed. -/
structure Done (s : State) : Prop where
  todo : ∀ p, s.todo p = []
  sending : ∀ p, s.sending p = none
  hello : ∀ q p, s.hello q p = []

/-- Every id is listed under the layer of the node it belongs to. -/
def Truthful (w : Wiring) (s : State) : Prop :=
  ∀ p i, ∀ id ∈ (s.registry p).layers i, w.layer id = i

/-- Nodes connect to nodes of their own layer only. -/
def SameLayer (w : Wiring) : Prop := ∀ c ∈ w.calls, ∀ t ∈ targets c.2, w.layer t.1 = w.layer c.1

instance (w : Wiring) : Decidable (SameLayer w) :=
  inferInstanceAs (Decidable (∀ c ∈ w.calls, ∀ t ∈ targets c.2, w.layer t.1 = w.layer c.1))

/-! ## What a step does -/

/-- The states that one step leads to. -/
inductive StepOf (s : State) : State → Prop where
  | register {p port layer todo} : s.sending p = none → s.todo p = (port, layer) :: todo →
      StepOf s (s.register p port layer todo)
  | handshake {p x} : s.sending p = some x → StepOf s (s.handshake p x)
  | accept {q p level rest} : s.hello q p = level :: rest → StepOf s (s.accept q p level)

theorem step_of {s t : State} {l : Label} (h : step s l = some t) : StepOf s t := by
  cases l with
  | register p =>
    simp only [step] at h
    split at h
    · rename_i hsending htodo
      obtain rfl := Option.some.inj h
      exact .register hsending htodo
    · exact absurd h (by simp)
  | handshake p =>
    obtain ⟨x, hx, rfl⟩ := Option.map_eq_some_iff.mp h
    exact .handshake hx
  | accept q p =>
    obtain ⟨level, hlevel, rfl⟩ := Option.map_eq_some_iff.mp h
    exact .accept (List.eq_cons_of_mem_head? hlevel)

section
variable {s : State}

@[simp] theorem register_todo (p port : Int) (layer : Fin 3) (todo : List (Int × Fin 3)) (a : Int) :
    (s.register p port layer todo).todo a = if a = p then todo else s.todo a := by
  by_cases ha : a = p <;> simp [State.register, ha]

@[simp] theorem register_sending (p port : Int) (layer : Fin 3) (todo : List (Int × Fin 3)) (a : Int) :
    (s.register p port layer todo).sending a =
      if a = p then some ⟨port, layer, port ∉ (s.registry p).sockets⟩ else s.sending a := by
  by_cases ha : a = p <;> simp [State.register, ha]

@[simp] theorem handshake_sending (p : Int) (x : Sending) (a : Int) :
    (s.handshake p x).sending a = if a = p then none else s.sending a := by
  by_cases ha : a = p <;> simp [State.handshake, ha]

@[simp] theorem handshake_hello (p : Int) (x : Sending) (a b : Int) :
    (s.handshake p x).hello a b =
      if x.opened = true ∧ a = p ∧ b = x.port then s.hello a b ++ [(x.layer : Int)] else s.hello a b := by
  by_cases hx : x.opened = true <;> simp [State.handshake, hx, send_apply]

@[simp] theorem accept_hello (q p level a b : Int) :
    (s.accept q p level).hello a b = if a = q ∧ b = p then (s.hello a b).eraseIdx 0 else s.hello a b :=
  receive_apply _ _ _ _ _ _

theorem mem_layers_update {registry : Int → Registry} {x : Registry.Step} {layer : Fin 3}
    (hx : x.layer? = some layer) {p a id : Int} {i : Fin 3} :
    id ∈ (Function.update registry p ((registry p).step x) a).layers i ↔
      id ∈ (registry a).layers i ∨ (a = p ∧ id = x.id ∧ i = layer) := by
  by_cases ha : a = p
  · subst ha
    rw [Function.update_self, Registry.mem_layers_step hx]
    simp
  · simp [ha]

theorem mem_sockets_update {registry : Int → Registry} {x : Registry.Step} {p a id : Int} :
    id ∈ (Function.update registry p ((registry p).step x) a).sockets ↔
      id ∈ (registry a).sockets ∨ (a = p ∧ id = x.id) := by
  by_cases ha : a = p
  · subst ha
    rw [Function.update_self, Registry.mem_sockets_step]
    simp
  · simp [ha]

theorem mem_layers_register {p port : Int} {layer : Fin 3} {todo : List (Int × Fin 3)} {a id : Int}
    {i : Fin 3} :
    id ∈ ((s.register p port layer todo).registry a).layers i ↔
      id ∈ (s.registry a).layers i ∨ (a = p ∧ id = port ∧ i = layer) :=
  mem_layers_update (x := .connect port layer) rfl

theorem mem_sockets_register {p port : Int} {layer : Fin 3} {todo : List (Int × Fin 3)} {a id : Int} :
    id ∈ ((s.register p port layer todo).registry a).sockets ↔
      id ∈ (s.registry a).sockets ∨ (a = p ∧ id = port) :=
  mem_sockets_update (x := .connect port layer)

theorem mem_layers_accept {q p a id : Int} {layer i : Fin 3} :
    id ∈ ((s.accept q p layer).registry a).layers i ↔
      id ∈ (s.registry a).layers i ∨ (a = p ∧ id = q ∧ i = layer) :=
  mem_layers_update (x := .incomming q layer) (Registry.level?_val layer)

theorem mem_sockets_accept {q p level a id : Int} :
    id ∈ ((s.accept q p level).registry a).sockets ↔
      id ∈ (s.registry a).sockets ∨ (a = p ∧ id = q) :=
  mem_sockets_update (x := .incomming q level)

end

/-! ## What is under way -/

/-- What is true of every target of every call is true of what is left of the calls and of the handshakes on
    their way. -/
structure Pending (R : Int → Int × Fin 3 → Prop) (s : State) : Prop where
  todo : ∀ p, ∀ t ∈ s.todo p, R p t
  sending : ∀ p, ∀ x ∈ s.sending p, R p (x.port, x.layer)
  hello : ∀ q p, ∀ level ∈ s.hello q p, ∃ layer : Fin 3, level = layer ∧ R q (p, layer)

theorem Pending.step {R : Int → Int × Fin 3 → Prop} {s t : State} (h : Pending R s)
    (hst : StepOf s t) : Pending R t := by
  cases hst with
  | @register p port layer todo hsending htodo =>
    have hall : ∀ x ∈ (port, layer) :: todo, R p x := by
      intro x hx
      exact h.todo p x (htodo ▸ hx)
    refine ⟨?_, ?_, h.hello⟩
    · intro a x hx
      rw [register_todo] at hx
      split at hx
      · rename_i ha
        rw [ha]
        exact hall x (List.mem_cons_of_mem _ hx)
      · exact h.todo a x hx
    · intro a x hx
      rw [register_sending] at hx
      split at hx
      · rename_i ha
        rw [ha, ← Option.some.inj hx]
        exact hall _ List.mem_cons_self
      · exact h.sending a x hx
  | @handshake p x hx =>
    refine ⟨h.todo, ?_, ?_⟩
    · intro a y hy
      rw [handshake_sending] at hy
      split at hy
      · exact absurd hy (by simp)
      · exact h.sending a y hy
    · intro a b level hlevel
      rw [handshake_hello] at hlevel
      split at hlevel
      · -- the queue that the handshake is put into
        rename_i hab
        obtain ⟨-, rfl, rfl⟩ := hab
        rcases List.mem_append.mp hlevel with hold | hnew
        · exact h.hello _ _ level hold
        · exact ⟨x.layer, List.mem_singleton.mp hnew, h.sending _ x hx⟩
      · exact h.hello a b level hlevel
  | @accept q p level rest hq =>
    refine ⟨h.todo, h.sending, ?_⟩
    intro a b l hl
    rw [accept_hello] at hl
    split at hl
    · exact h.hello a b l (List.mem_of_mem_eraseIdx hl)
    · exact h.hello a b l hl

theorem mem_todo_init {w : Wiring} {p : Int} {t : Int × Fin 3} :
    t ∈ (init w).todo p ↔ ∃ c ∈ w.calls, c.1 = p ∧ t ∈ targets c.2 := by
  show t ∈ (select p w.calls).flatMap targets ↔ _
  simp only [List.mem_flatMap, mem_select]
  constructor
  · rintro ⟨c, hc, ht⟩
    exact ⟨(p, c), hc, rfl, ht⟩
  · rintro ⟨⟨a, c⟩, hc, rfl, ht⟩
    exact ⟨c, hc, ht⟩

theorem pending_of_reachable {w : Wiring} {R : Int → Int × Fin 3 → Prop}
    (hR : ∀ c ∈ w.calls, ∀ t ∈ targets c.2, R c.1 t) {s : State}
    (hs : Reachable (system w) anyStep s) : Pending R s := by
  refine Reachable.invariant (I := Pending R) ?_ ?_ hs
  · rintro s rfl
    refine ⟨?_, by simp [init], by simp [init]⟩
    intro p t ht
    obtain ⟨c, hc, rfl, hmem⟩ := mem_todo_init.mp ht
    exact hR c hc t hmem
  · intro s l t _ h _ hst
    exact h.step (step_of hst)

/-- A level on its way is the layer of the node it is sent to. -/
theorem Wiring.pending_listed (w : Wiring) {s : State} (hs : Reachable (system w) anyStep s) :
    Pending (fun _ t => w.layer t.1 = t.2) s :=
  pending_of_reachable w.listed hs

/-! ## Connections within layers -/

/-- Then a level on its way is also the layer of the node that sends it. -/
theorem SameLayer.pending {w : Wiring} (hw : SameLayer w) {s : State}
    (hs : Reachable (system w) anyStep s) :
    Pending (fun p t => w.layer t.1 = t.2 ∧ w.layer p = t.2) s := by
  apply pending_of_reachable _ hs
  intro c hc t ht
  have hlisted := w.listed c hc t ht
  exact ⟨hlisted, by rw [← hw c hc t ht, hlisted]⟩

theorem truthful_of_sameLayer {w : Wiring} (hw : SameLayer w) {s : State}
    (hs : Reachable (system w) anyStep s) : Truthful w s := by
  refine Reachable.invariant (I := Truthful w) ?_ ?_ hs
  · rintro s rfl p i id hid
    simp [init, Registry.empty] at hid
  · intro s l t hs h _ hst a i id hid
    cases step_of hst with
    | @register p port layer todo hsending htodo =>
      rcases mem_layers_register.mp hid with hold | ⟨-, rfl, rfl⟩
      · exact h a i id hold
      · exact (w.pending_listed hs).todo p (id, i) (by rw [htodo]; exact List.mem_cons_self)
    | @handshake p x hx => exact h a i id hid
    | @accept q p level rest hq =>
      obtain ⟨layer, rfl, -, hsender⟩ := (hw.pending hs).hello q p level (by simp [hq])
      rcases mem_layers_accept.mp hid with hold | ⟨-, rfl, rfl⟩
      · exact h a i id hold
      · exact hsender

/-! ## Connections between layers -/

/-- Each peer that `p` has a socket for gets to list `p`, or has got `p` to list it, under the layer of the
    node that lists. -/
def Linked (w : Wiring) (s : State) (p q : Int) : Prop :=
  (∃ x, s.sending p = some x ∧ x.port = q ∧ x.opened = true) ∨ s.hello p q ≠ [] ∨
    p ∈ (s.registry q).layers (w.layer q) ∨ q ∈ (s.registry p).layers (w.layer p)

/-- The calls that have been executed have left sockets, and every socket links its two ends. -/
structure LinkInv (w : Wiring) (s : State) : Prop where
  executed : ∀ c ∈ w.calls, ∀ t ∈ targets c.2, t ∈ s.todo c.1 ∨ t.1 ∈ (s.registry c.1).sockets
  linked : ∀ p q, q ∈ (s.registry p).sockets → Linked w s p q

theorem LinkInv.register {w : Wiring} {s : State} (h : LinkInv w s) {p port : Int} {layer : Fin 3}
    {todo : List (Int × Fin 3)} (hsending : s.sending p = none)
    (htodo : s.todo p = (port, layer) :: todo) : LinkInv w (s.register p port layer todo) := by
  refine ⟨?_, ?_⟩
  · intro c hc t ht
    rw [mem_sockets_register]
    rcases h.executed c hc t ht with hleft | hsocket
    · by_cases hp : c.1 = p
      · rw [hp, htodo] at hleft
        rcases List.mem_cons.mp hleft with rfl | hleft
        · exact Or.inr (Or.inr ⟨hp, rfl⟩)
        · exact Or.inl (by simpa [hp] using hleft)
      · exact Or.inl (by simpa [hp] using hleft)
    · exact Or.inr (Or.inl hsocket)
  · intro a b hb
    unfold Linked
    rw [mem_layers_register, mem_layers_register]
    by_cases hold : b ∈ (s.registry a).sockets
    · rcases h.linked a b hold with ⟨x, hx, hrest⟩ | hhello | hlist | hlist
      · refine Or.inl ⟨x, ?_, hrest⟩
        have hne : a ≠ p := fun he => by rw [he, hsending] at hx; exact absurd hx (by simp)
        simpa [hne] using hx
      · exact Or.inr (Or.inl hhello)
      · exact Or.inr (Or.inr (Or.inl (Or.inl hlist)))
      · exact Or.inr (Or.inr (Or.inr (Or.inl hlist)))
    · -- the block has opened this connection
      obtain ⟨rfl, rfl⟩ := (mem_sockets_register.mp hb).resolve_left hold
      exact Or.inl ⟨⟨b, layer, b ∉ (s.registry a).sockets⟩, by simp, rfl, by simpa using hold⟩

theorem LinkInv.handshake {w : Wiring} {s : State} (h : LinkInv w s) {p : Int} {x : Sending}
    (hx : s.sending p = some x) : LinkInv w (s.handshake p x) := by
  refine ⟨h.executed, ?_⟩
  intro a b hb
  have hgrow : s.hello a b ≠ [] → (s.handshake p x).hello a b ≠ [] := by
    intro hne
    rw [handshake_hello]
    split
    · simp
    · exact hne
  rcases h.linked a b hb with ⟨y, hy, hport, hopened⟩ | hhello | hlist | hlist
  · by_cases ha : a = p
    · -- this is the handshake that is sent
      subst ha
      obtain rfl := Option.some.inj (hy.symm.trans hx)
      refine Or.inr (Or.inl ?_)
      simp [hopened, hport]
    · exact Or.inl ⟨y, by simpa [ha] using hy, hport, hopened⟩
  · exact Or.inr (Or.inl (hgrow hhello))
  · exact Or.inr (Or.inr (Or.inl hlist))
  · exact Or.inr (Or.inr (Or.inr hlist))

theorem LinkInv.accept {w : Wiring} {s : State} (h : LinkInv w s) {q p : Int} :
    LinkInv w (s.accept q p (w.layer p)) := by
  refine ⟨?_, ?_⟩
  · intro c hc t ht
    rw [mem_sockets_accept]
    exact (h.executed c hc t ht).imp id Or.inl
  · intro a b hb
    unfold Linked
    rw [mem_layers_accept, mem_layers_accept]
    by_cases hqp : a = q ∧ b = p
    · obtain ⟨rfl, rfl⟩ := hqp
      exact Or.inr (Or.inr (Or.inl (Or.inr ⟨rfl, rfl, rfl⟩)))
    · rcases mem_sockets_accept.mp hb with hold | ⟨rfl, rfl⟩
      · rcases h.linked a b hold with hsending | hhello | hlist | hlist
        · exact Or.inl hsending
        · refine Or.inr (Or.inl ?_)
          simpa [hqp] using hhello
        · exact Or.inr (Or.inr (Or.inl (Or.inl hlist)))
        · exact Or.inr (Or.inr (Or.inr (Or.inl hlist)))
      · exact Or.inr (Or.inr (Or.inr (Or.inr ⟨rfl, rfl, rfl⟩)))

theorem linkInv {w : Wiring} {s : State} (hs : Reachable (system w) anyStep s) : LinkInv w s := by
  refine Reachable.invariant (I := LinkInv w) ?_ ?_ hs
  · rintro s rfl
    refine ⟨?_, by simp [init, Registry.empty]⟩
    intro c hc t ht
    exact Or.inl (mem_todo_init.mpr ⟨c, hc, rfl, ht⟩)
  · intro s l t hs h _ hst
    cases step_of hst with
    | register hsending htodo => exact h.register hsending htodo
    | handshake hx => exact h.handshake hx
    | @accept q p level rest hq =>
      obtain ⟨layer, rfl, hlayer⟩ := (w.pending_listed hs).hello q p level (by simp [hq])
      replace hlayer : w.layer p = layer := hlayer
      subst hlayer
      exact h.accept

/-- Once everything is done, truthful lists have linked nodes of the same layer. -/
theorem sameLayer_of_truthful {w : Wiring} {s : State} (hs : Reachable (system w) anyStep s)
    (hdone : Done s) (h : Truthful w s) : SameLayer w := by
  intro c hc t ht
  have hinv := linkInv hs
  have hsocket : t.1 ∈ (s.registry c.1).sockets := by
    rcases hinv.executed c hc t ht with hleft | hsocket
    · exact absurd hleft (by simp [hdone.todo])
    · exact hsocket
  rcases hinv.linked c.1 t.1 hsocket with ⟨x, hx, -⟩ | hhello | hlist | hlist
  · exact absurd hx (by simp [hdone.sending])
  · exact absurd (hdone.hello _ _) hhello
  · exact (h _ _ _ hlist).symm
  · exact h _ _ _ hlist

/-! ## Every run can be completed -/

/-- No iteration is half done, and no handshake is on its way. -/
structure Rest (s : State) : Prop where
  sending : ∀ p, s.sending p = none
  hello : ∀ q p, s.hello q p = []

/-- One iteration, with its handshake processed at once. -/
theorem Rest.iteration {w : Wiring} {s : State} (hs : Reachable (system w) anyStep s) (hrest : Rest s)
    {p port : Int} {layer : Fin 3} {todo : List (Int × Fin 3)} (htodo : s.todo p = (port, layer) :: todo) :
    ∃ t, Reachable (system w) anyStep t ∧ Rest t ∧ t.todo = Function.update s.todo p todo := by
  let x : Sending := ⟨port, layer, port ∉ (s.registry p).sockets⟩
  let s₁ := s.register p port layer todo
  let s₂ := s₁.handshake p x
  have h₁ : Reachable (system w) anyStep s₁ := by
    refine hs.step (l := .register p) trivial ?_
    show step s (.register p) = some s₁
    simp only [step, hrest.sending, htodo]
    rfl
  have h₂ : Reachable (system w) anyStep s₂ := by
    refine h₁.step (l := .handshake p) trivial ?_
    show (s₁.sending p).map (s₁.handshake p) = some s₂
    rw [register_sending, if_pos rfl]
    rfl
  have hsending (a : Int) : s₂.sending a = none := by simp [s₂, s₁, hrest.sending]
  have hhello (a b : Int) : s₂.hello a b =
      if x.opened = true ∧ a = p ∧ b = port then [(layer : Int)] else [] := by
    simp only [s₂, handshake_hello, show s₁.hello a b = [] from hrest.hello a b, List.nil_append]
    rfl
  by_cases hx : x.opened = true
  · refine ⟨s₂.accept p port layer, ?_, ⟨hsending, ?_⟩, rfl⟩
    · refine h₂.step (l := .accept p port) trivial ?_
      show (s₂.hello p port).head?.map (s₂.accept p port) = some _
      rw [hhello, if_pos ⟨hx, rfl, rfl⟩]
      rfl
    · intro a b
      rw [accept_hello, hhello]
      by_cases hab : a = p ∧ b = port
      · rw [if_pos hab, if_pos ⟨hx, hab⟩]
        rfl
      · rw [if_neg hab, if_neg (fun h => hab h.2)]
  · refine ⟨s₂, h₂, ⟨hsending, ?_⟩, rfl⟩
    intro a b
    rw [hhello, if_neg (fun h => hx h.1)]

/-- The calls return one after another, by induction on the number of iterations that are left. -/
theorem Rest.exists_done {w : Wiring} {nodes : List Int} (hnd : nodes.Nodup) (n : Nat) :
    ∀ {s : State}, Reachable (system w) anyStep s → Rest s → (∀ p, s.todo p ≠ [] → p ∈ nodes) →
      (nodes.map fun p => (s.todo p).length).sum = n → ∃ t, Reachable (system w) anyStep t ∧ Done t := by
  induction n using Nat.strong_induction_on with
  | _ n ih =>
    intro s hs hrest hnodes hsum
    by_cases hall : ∀ p, s.todo p = []
    · exact ⟨s, hs, ⟨hall, hrest.sending, hrest.hello⟩⟩
    · obtain ⟨p, hp⟩ := not_forall.mp hall
      obtain ⟨⟨port, layer⟩, todo, htodo⟩ := List.exists_cons_of_ne_nil hp
      obtain ⟨t, ht, hrest', htodo'⟩ := hrest.iteration hs htodo
      have hless : (nodes.map fun p => (s.todo p).length).sum + 0 =
          (nodes.map fun p => (t.todo p).length).sum + 1 := by
        refine sum_map_shift hnd (hnodes p hp) ?_ ?_
        · intro a _ ha
          rw [htodo', Function.update_of_ne ha]
        · rw [htodo', Function.update_self, htodo]
          rfl
      refine ih (nodes.map fun p => (t.todo p).length).sum (by omega) ht hrest' ?_ rfl
      intro a ha
      apply hnodes
      intro hnil
      apply ha
      rw [htodo', Function.update_of_ne, hnil]
      rintro rfl
      exact hp hnil

theorem exists_done (w : Wiring) : ∃ s, Reachable (system w) anyStep s ∧ Done s := by
  refine Rest.exists_done (List.nodup_dedup (w.calls.map Prod.fst)) _ (Reachable.of_init rfl)
    ⟨fun _ => rfl, fun _ _ => rfl⟩ ?_ rfl
  intro p hp
  obtain ⟨t, ht⟩ := List.exists_mem_of_ne_nil _ hp
  obtain ⟨c, hc, rfl, -⟩ := mem_todo_init.mp ht
  exact List.mem_dedup.mpr (List.mem_map.mpr ⟨c, hc, rfl⟩)

/-! ## Which wirings are recorded truthfully -/

/-- Whenever all calls have returned and all handshakes are processed, every list is truthful: this is so if
    and only if no node is told to connect to a node of another layer. -/
theorem truthful_iff_sameLayer (w : Wiring) :
    (∀ s, Reachable (system w) anyStep s → Done s → Truthful w s) ↔ SameLayer w := by
  constructor
  · intro h
    obtain ⟨s, hs, hdone⟩ := exists_done w
    exact sameLayer_of_truthful hs hdone (h s hs hdone)
  · intro hw s hs _
    exact truthful_of_sameLayer hw hs

/-- The arguments of a call. -/
def call (coreLayer layerOne layerTwo : List Int) : Call :=
  fun i => if i = CORE_LAYER then coreLayer else if i = LAYER_ONE then layerOne else layerTwo

/-- `Controller::Run`. -/
def Wiring.controller : Wiring where
  layer p :=
    if p ∈ [8888, 8889, 8890] then CORE_LAYER else if p ∈ [8891, 8892] then LAYER_ONE else LAYER_TWO
  calls := [(8888, call [8889, 8890] [] []), (8889, call [8890] [8891] []), (8890, call [] [8892] []),
    (8892, call [] [] [8893, 8894])]
  listed := by decide

/-- `A2` connects to `B1`, which lists it under layer one. -/
theorem not_truthful_controller :
    ¬ ∀ s, Reachable (system Wiring.controller) anyStep s → Done s → Truthful Wiring.controller s := by
  intro h
  obtain ⟨s, hs, hdone⟩ := exists_done Wiring.controller
  exact absurd (sameLayer_of_truthful hs hdone (h s hs hdone)) (by decide)

end Connections
end Epidemica
