import Epidemica.Controller.StartUp
import Epidemica.Nodes.Connections
import Epidemica.Propagation.System

/-!
# `Controller.Tables` — the tables that the start-up leaves

If no two nodes are told to connect twice, then for each entry that a table is to get there is one ticket: an
iteration of `Connect` that is left, a handshake on its way, or the entry itself (`Tickets`). So the tables do
not depend on the order in which the calls and the handshakes are processed, and those that `Controller::Run`
leaves are the tables of `Tree.controller`.
-/

namespace Epidemica
namespace Connections

open Network Transition

/-- The iterations of `Connect` on `p`. -/
def Wiring.todo (w : Wiring) (p : Int) : List (Int × Fin 3) := (select p w.calls).flatMap targets

/-- How often `p` is still to connect to `q`. -/
def links (todo : Int → List (Int × Fin 3)) (p q : Int) : Nat := (todo p).countP fun t => t.1 = q

/-- Whoever is connected is connected once, from one side. -/
def Simple (w : Wiring) : Prop :=
  ∀ c ∈ w.calls, ∀ t ∈ targets c.2, links w.todo c.1 t.1 + links w.todo t.1 c.1 = 1

instance (w : Wiring) : Decidable (Simple w) :=
  inferInstanceAs (Decidable (∀ c ∈ w.calls, ∀ t ∈ targets c.2, _ = _))

/-- What is left to connect `p` and `q`, from both sides. -/
def left (s : State) (p q : Int) : Nat := links s.todo p q + links s.todo q p

theorem left_comm (s : State) (p q : Int) : left s p q = left s q p := Nat.add_comm _ _

/-- Nothing is left to connect two nodes that are connected, or are about to be. -/
structure OnceInv (s : State) : Prop where
  most : ∀ p q, left s p q ≤ 1
  socket : ∀ p, ∀ q ∈ (s.registry p).sockets, left s p q = 0
  sending : ∀ p, ∀ x ∈ s.sending p, x.opened = true ∧ left s p x.port = 0
  hello : ∀ q p, s.hello q p ≠ [] → left s q p = 0

/-- The handshake that `q` is about to send to `p` for layer `i`. -/
def sendingTo (s : State) (q p : Int) (i : Fin 3) : Nat :=
  ((s.sending q).toList.filter fun x => x.port = p ∧ x.layer = i).length

/-- The tickets for the entry of `q` under layer `i` in the table of `p`. -/
def tickets (s : State) (p q : Int) (i : Fin 3) : Nat :=
  (s.todo p).count (q, i) + (s.todo q).count (p, i) + sendingTo s q p i + (s.hello q p).count (i : Int) +
    ((s.registry p).layers i).count q

/-- Each entry has the tickets that the calls give it. -/
def Tickets (w : Wiring) (s : State) : Prop :=
  ∀ p q i, tickets s p q i = (w.todo p).count (q, i) + (w.todo q).count (p, i)

section
variable {w : Wiring} {s : State} {p port : Int} {layer : Fin 3} {todo : List (Int × Fin 3)}

/-! ## Once -/

theorem links_register (htodo : s.todo p = (port, layer) :: todo) (a b : Int) :
    links s.todo a b = links (s.register p port layer todo).todo a b + if a = p ∧ b = port then 1 else 0 := by
  unfold links
  rw [register_todo]
  by_cases ha : a = p
  · subst ha
    rw [htodo, if_pos rfl, List.countP_cons]
    by_cases hb : b = port
    · simp [hb]
    · simp [hb, Ne.symm hb]
  · simp [ha]

/-- A block uses up the one iteration for its port. -/
theorem OnceInv.left_register (h : OnceInv s) (htodo : s.todo p = (port, layer) :: todo) (a b : Int) :
    left (s.register p port layer todo) a b ≤ left s a b ∧
      left (s.register p port layer todo) p port = 0 ∧ left s p port = 1 := by
  have hlink := links_register htodo
  have hmost := h.most p port
  have hab := hlink a b
  have hba := hlink b a
  have hp := hlink p port
  have hq := hlink port p
  rw [if_pos ⟨rfl, rfl⟩] at hp
  unfold left at hmost ⊢
  omega

theorem OnceInv.register (h : OnceInv s) (htodo : s.todo p = (port, layer) :: todo) :
    OnceInv (s.register p port layer todo) := by
  have hless : ∀ a b, left (s.register p port layer todo) a b ≤ left s a b :=
    fun a b => (h.left_register htodo a b).1
  obtain ⟨-, hdone, hone⟩ := h.left_register htodo p port
  refine ⟨?_, ?_, ?_, ?_⟩
  · intro a b
    exact (hless a b).trans (h.most a b)
  · intro a b hb
    rcases mem_sockets_register.mp hb with hold | ⟨rfl, rfl⟩
    · have hzero := h.socket a b hold
      have := hless a b
      omega
    · exact hdone
  · intro a x hx
    rw [register_sending] at hx
    split at hx
    · rename_i ha
      obtain rfl := Option.some.inj hx
      have hnew : port ∉ (s.registry p).sockets := fun hmem => by
        have := h.socket p port hmem
        omega
      exact ⟨decide_eq_true hnew, ha ▸ hdone⟩
    · obtain ⟨hopened, hzero⟩ := h.sending a x hx
      have := hless a x.port
      exact ⟨hopened, by omega⟩
  · intro a b hne
    have hzero := h.hello a b hne
    have := hless a b
    omega

theorem OnceInv.handshake (h : OnceInv s) {x : Sending} (hx : s.sending p = some x) :
    OnceInv (s.handshake p x) := by
  refine ⟨h.most, h.socket, ?_, ?_⟩
  · intro a y hy
    rw [handshake_sending] at hy
    split at hy
    · exact absurd hy (by simp)
    · exact h.sending a y hy
  · intro a b hne
    rw [handshake_hello] at hne
    split at hne
    · rename_i hab
      obtain ⟨-, rfl, rfl⟩ := hab
      exact (h.sending a x hx).2
    · exact h.hello a b hne

theorem OnceInv.accept (h : OnceInv s) {q level : Int} {rest : List Int} (hq : s.hello q p = level :: rest) :
    OnceInv (s.accept q p level) := by
  refine ⟨h.most, ?_, h.sending, ?_⟩
  · intro a b hb
    rcases mem_sockets_accept.mp hb with hold | ⟨rfl, rfl⟩
    · exact h.socket a b hold
    · exact (left_comm s b a).symm.trans (h.hello b a (by simp [hq]))
  · intro a b hne
    rw [accept_hello] at hne
    split at hne
    · rename_i hab
      obtain ⟨rfl, rfl⟩ := hab
      exact h.hello a b (by simp [hq])
    · exact h.hello a b hne

theorem onceInv_init (hw : Simple w) : OnceInv (init w) := by
  refine ⟨?_, by simp [init, Registry.empty], by simp [init], by simp [init]⟩
  have hcall : ∀ p q, 0 < links w.todo p q → links w.todo p q + links w.todo q p = 1 := by
    intro p q hpos
    obtain ⟨t, ht, hq⟩ := List.countP_pos_iff.mp hpos
    obtain ⟨c, hc, rfl, hmem⟩ := mem_todo_init.mp (show t ∈ (init w).todo p from ht)
    obtain rfl : t.1 = q := by simpa using hq
    exact hw c hc t hmem
  intro p q
  show links w.todo p q + links w.todo q p ≤ 1
  by_cases hp : 0 < links w.todo p q
  · exact (hcall p q hp).le
  · by_cases hq : 0 < links w.todo q p
    · have := hcall q p hq
      omega
    · omega

theorem onceInv (hw : Simple w) (hs : Reachable (system w) anyStep s) : OnceInv s := by
  refine Reachable.invariant (I := OnceInv) ?_ ?_ hs
  · rintro s rfl
    exact onceInv_init hw
  · intro s l t _ h _ hst
    cases step_of hst with
    | register _ htodo => exact h.register htodo
    | handshake hx => exact h.handshake hx
    | accept hq => exact h.accept hq

/-! ## Tickets -/

/-- One entry is added. -/
theorem count_layers_step {registry : Int → Registry} {x : Registry.Step} {p : Int} {layer : Fin 3}
    (hx : x.layer? = some layer) (a b : Int) (i : Fin 3) :
    ((Function.update registry p ((registry p).step x) a).layers i).count b =
      ((registry a).layers i).count b + if a = p ∧ b = x.id ∧ i = layer then 1 else 0 := by
  by_cases ha : a = p
  · subst ha
    rw [Function.update_self, Registry.step_eq, hx]
    show (Function.update (registry a).layers layer ((registry a).layers layer ++ [x.id]) i).count b = _
    by_cases hi : i = layer
    · subst hi
      rw [Function.update_self, List.count_append, List.count_singleton]
      by_cases hb : b = x.id
      · simp [hb]
      · simp [hb, Ne.symm hb]
    · simp [hi]
  · simp [ha]

theorem count_todo_register (htodo : s.todo p = (port, layer) :: todo) (a b : Int) (i : Fin 3) :
    (s.todo a).count (b, i) = ((s.register p port layer todo).todo a).count (b, i) +
      if a = p ∧ b = port ∧ i = layer then 1 else 0 := by
  rw [register_todo]
  by_cases ha : a = p
  · subst ha
    rw [htodo, if_pos rfl, List.count_cons]
    by_cases hb : b = port ∧ i = layer
    · obtain ⟨rfl, rfl⟩ := hb
      simp
    · have hne : ¬ (port = b ∧ layer = i) := fun h => hb ⟨h.1.symm, h.2.symm⟩
      simp [hb, hne]
  · simp [ha]

theorem Tickets.register (h : Tickets w s) (hsending : s.sending p = none)
    (htodo : s.todo p = (port, layer) :: todo) : Tickets w (s.register p port layer todo) := by
  intro a b i
  rw [← h a b i]
  have hfrom := count_todo_register htodo a b i
  have hto := count_todo_register htodo b a i
  have hentry : (((s.register p port layer todo).registry a).layers i).count b =
      ((s.registry a).layers i).count b + if a = p ∧ b = port ∧ i = layer then 1 else 0 :=
    count_layers_step (x := .connect port layer) rfl a b i
  have hsend : sendingTo (s.register p port layer todo) b a i =
      sendingTo s b a i + if b = p ∧ a = port ∧ i = layer then 1 else 0 := by
    unfold sendingTo
    rw [register_sending]
    by_cases hb : b = p
    · subst hb
      rw [hsending, if_pos rfl]
      by_cases hab : a = port ∧ i = layer
      · obtain ⟨rfl, rfl⟩ := hab
        simp
      · have hne : ¬ (port = a ∧ layer = i) := fun h => hab ⟨h.1.symm, h.2.symm⟩
        simp [hab, hne]
    · simp [hb]
  have hhello : (s.register p port layer todo).hello = s.hello := rfl
  unfold tickets
  rw [hentry, hsend, hhello]
  omega

theorem Tickets.handshake (h : Tickets w s) {x : Sending} (hx : s.sending p = some x)
    (hopened : x.opened = true) : Tickets w (s.handshake p x) := by
  intro a b i
  rw [← h a b i]
  have hmove : sendingTo s b a i + (s.hello b a).count (i : Int) =
      sendingTo (s.handshake p x) b a i + ((s.handshake p x).hello b a).count (i : Int) := by
    unfold sendingTo
    rw [handshake_sending, handshake_hello, hopened]
    by_cases hb : b = p
    · subst hb
      rw [hx, if_pos rfl]
      by_cases ha : a = x.port
      · subst ha
        by_cases hi : x.layer = i
        · simp [hi]
          omega
        · have hlevel : ¬ (x.layer : Int) = (i : Int) := by
            intro he
            exact hi (Fin.ext (by omega))
          simp [hi, hlevel]
      · simp [ha, Ne.symm ha]
    · simp [hb]
  have htodo : (s.handshake p x).todo = s.todo := rfl
  have hregistry : (s.handshake p x).registry = s.registry := rfl
  unfold tickets
  rw [htodo, hregistry]
  omega

theorem Tickets.accept (h : Tickets w s) {q : Int} {rest : List Int}
    (hq : s.hello q p = (layer : Int) :: rest) : Tickets w (s.accept q p layer) := by
  intro a b i
  rw [← h a b i]
  have hentry : (((s.accept q p layer).registry a).layers i).count b =
      ((s.registry a).layers i).count b + if a = p ∧ b = q ∧ i = layer then 1 else 0 :=
    count_layers_step (x := .incomming q layer) (Registry.level?_val layer) a b i
  have hhello : (s.hello b a).count (i : Int) = ((s.accept q p layer).hello b a).count (i : Int) +
      if a = p ∧ b = q ∧ i = layer then 1 else 0 := by
    rw [accept_hello]
    by_cases hab : b = q ∧ a = p
    · obtain ⟨rfl, rfl⟩ := hab
      rw [hq, if_pos ⟨rfl, rfl⟩, List.eraseIdx_zero, List.tail_cons, List.count_cons]
      by_cases hi : i = layer
      · simp [hi]
      · have hlevel : ¬ (layer : Int) = (i : Int) := by
          intro he
          exact hi (Fin.ext (by omega))
        simp [hi, hlevel]
    · have hba : ¬ (a = p ∧ b = q ∧ i = layer) := fun h => hab ⟨h.2.1, h.1⟩
      rw [if_neg hab, if_neg hba, Nat.add_zero]
  have hsend : sendingTo (s.accept q p layer) b a i = sendingTo s b a i := rfl
  have htodo : (s.accept q p layer).todo = s.todo := rfl
  unfold tickets
  rw [hentry, hsend, htodo]
  omega

theorem tickets_of_reachable (hw : Simple w) (hs : Reachable (system w) anyStep s) : Tickets w s := by
  refine Reachable.invariant (I := Tickets w) ?_ ?_ hs
  · rintro s rfl p q i
    show (w.todo p).count (q, i) + (w.todo q).count (p, i) + 0 + 0 + 0 = _
    rfl
  · intro s l t hs h _ hst
    cases step_of hst with
    | register hsending htodo => exact h.register hsending htodo
    | handshake hx => exact h.handshake hx ((onceInv hw hs).sending _ _ hx).1
    | @accept q p level rest hq =>
      obtain ⟨layer, rfl, -⟩ := (w.pending_listed hs).hello q p level (by simp [hq])
      exact h.accept hq

end

/-! ## The tables -/

/-- Once everything is done, only the entries are left. -/
theorem count_of_done {w : Wiring} (hw : Simple w) {s : State} (hs : Reachable (system w) anyStep s)
    (hdone : Done s) (p q : Int) (i : Fin 3) :
    ((s.registry p).layers i).count q = (w.todo p).count (q, i) + (w.todo q).count (p, i) := by
  have htickets := tickets_of_reachable hw hs p q i
  have hsend : sendingTo s q p i = 0 := by simp [sendingTo, hdone.sending]
  unfold tickets at htickets
  rw [hsend, hdone.todo p, hdone.todo q, hdone.hello q p] at htickets
  simpa using htickets

/-- The tables are those of `T`, up to their order. -/
structure Holds (T : Tree) (s : State) : Prop where
  core : ∀ p ∈ T.mesh.cores, ((s.registry p).layers CORE_LAYER).Perm (T.mesh.peers p)
  one : ∀ p ∈ T.mesh.cores, ((s.registry p).layers LAYER_ONE).Perm (T.mesh.layers p LAYER_ONE)
  two : ∀ b ∈ T.ones, ((s.registry b).layers LAYER_TWO).Perm (T.layerTwo b)

theorem simple_controller : Simple Wiring.controller := by decide

/-- The controller's calls are about the controller's ports. -/
theorem count_controller {p q : Int} (hq : q ∉ StartUp.ports) (i : Fin 3) :
    (Wiring.controller.todo p).count (q, i) + (Wiring.controller.todo q).count (p, i) = 0 := by
  have hports : ∀ c ∈ Wiring.controller.calls, ∀ t ∈ targets c.2,
      c.1 ∈ StartUp.ports ∧ t.1 ∈ StartUp.ports := by
    decide
  have hfrom : (q, i) ∉ Wiring.controller.todo p := by
    intro hmem
    obtain ⟨c, hc, -, ht⟩ := mem_todo_init.mp hmem
    exact hq (hports c hc _ ht).2
  have hto : (p, i) ∉ Wiring.controller.todo q := by
    intro hmem
    obtain ⟨c, hc, rfl, ht⟩ := mem_todo_init.mp hmem
    exact hq (hports c hc _ ht).1
  rw [List.count_eq_zero.mpr hfrom, List.count_eq_zero.mpr hto]

/-- A table of the controller, port by port. -/
theorem perm_controller {s : State} (hs : Reachable (system Wiring.controller) anyStep s) (hdone : Done s)
    {p : Int} {i : Fin 3} {l : List Int} (hl : ∀ q ∈ l, q ∈ StartUp.ports)
    (hcount : ∀ q ∈ StartUp.ports,
      (Wiring.controller.todo p).count (q, i) + (Wiring.controller.todo q).count (p, i) = l.count q) :
    ((s.registry p).layers i).Perm l := by
  rw [List.perm_iff_count]
  intro q
  rw [count_of_done simple_controller hs hdone]
  by_cases hq : q ∈ StartUp.ports
  · exact hcount q hq
  · rw [count_controller hq, List.count_eq_zero.mpr fun hmem => hq (hl q hmem)]

/-- If no two nodes are told to connect twice, then in whatever order the calls of `Connect` and the
    handshakes are processed, in the end `m_Layers[i]` of `p` holds the ports that `p` was told to connect to
    for layer `i` and the nodes that were told to connect to `p` for layer `i`, each once, and nothing else.
    What `Controller::Run` leaves are the tables of `Tree.controller`. -/
theorem start_up_tables :
    (∀ w s, Simple w → Reachable (system w) anyStep s → Done s → ∀ p q i,
      ((s.registry p).layers i).count q = (w.todo p).count (q, i) + (w.todo q).count (p, i)) ∧
    ∀ s, Reachable (system Wiring.controller) anyStep s → Done s → Holds Tree.controller s := by
  refine ⟨fun w s hw hs hdone => count_of_done hw hs hdone, fun s hs hdone => ⟨?_, ?_, ?_⟩⟩
  · have hports : ∀ p ∈ Tree.controller.mesh.cores, ∀ q ∈ Tree.controller.mesh.peers p, q ∈ StartUp.ports := by
      decide
    have hcount : ∀ p ∈ Tree.controller.mesh.cores, ∀ q ∈ StartUp.ports,
        (Wiring.controller.todo p).count (q, CORE_LAYER) + (Wiring.controller.todo q).count (p, CORE_LAYER) =
          (Tree.controller.mesh.peers p).count q := by decide
    exact fun p hp => perm_controller hs hdone (hports p hp) (hcount p hp)
  · have hports : ∀ p ∈ Tree.controller.mesh.cores, ∀ q ∈ Tree.controller.mesh.layers p LAYER_ONE,
        q ∈ StartUp.ports := by decide
    have hcount : ∀ p ∈ Tree.controller.mesh.cores, ∀ q ∈ StartUp.ports,
        (Wiring.controller.todo p).count (q, LAYER_ONE) + (Wiring.controller.todo q).count (p, LAYER_ONE) =
          (Tree.controller.mesh.layers p LAYER_ONE).count q := by decide
    exact fun p hp => perm_controller hs hdone (hports p hp) (hcount p hp)
  · have hports : ∀ b ∈ Tree.controller.ones, ∀ q ∈ Tree.controller.layerTwo b, q ∈ StartUp.ports := by decide
    have hcount : ∀ b ∈ Tree.controller.ones, ∀ q ∈ StartUp.ports,
        (Wiring.controller.todo b).count (q, LAYER_TWO) + (Wiring.controller.todo q).count (b, LAYER_TWO) =
          (Tree.controller.layerTwo b).count q := by decide
    exact fun b hb => perm_controller hs hdone (hports b hb) (hcount b hb)

theorem start_up_tables_controller : ∃ s, Reachable (system Wiring.controller) anyStep s ∧ Done s ∧
    Holds Tree.controller s ∧ ((s.registry 8891).layers LAYER_ONE).count 8889 = 1 := by
  obtain ⟨s, hs, hdone⟩ := exists_done Wiring.controller
  have hcount := start_up_tables.1 Wiring.controller s simple_controller hs hdone 8891 8889 LAYER_ONE
  exact ⟨s, hs, hdone, start_up_tables.2 s hs hdone, hcount.trans (by decide)⟩

end Connections
end Epidemica
